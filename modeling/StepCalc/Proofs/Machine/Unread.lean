import StepCalc.Proofs.Machine.Budget

/-!
# Input that is not read

Only `read` looks at the input, and only at its first word. So each move takes some words from the
front of the input, none or one, and makes the same move whatever comes after them
(`Machine.Move.takesOnly`); the one exception is a `read` that finds no word, and that one ends the
run with its error (`Machine.Starved`). A run that ends otherwise is therefore the same run on every
input that begins with the words it has taken (`unread_input_is_irrelevant`).
-/

namespace StepCalc

/-! ## States -/

namespace State

def withInput (s : State) (input : List String) : State := { s with input }

theorem input_of_evaluate {s s' : State} {e : Expr} {result : Except RuntimeError Int64}
    (h : s.evaluate e = (result, s')) : s'.input = s.input := by
  obtain ⟨_, rfl⟩ := Prod.mk.inj h
  rfl

/-- The value of an expression does not depend on the input. -/
theorem evaluate_withInput {s s' : State} {e : Expr} {result : Except RuntimeError Int64}
    (h : s.evaluate e = (result, s')) (input : List String) :
    (s.withInput input).evaluate e = (result, s'.withInput input) := by
  obtain ⟨rfl, rfl⟩ := Prod.mk.inj h
  rfl

/-- From `s`, the action takes some words from the front of the input, and it does the same whatever
comes after them. -/
def TakesOnly (action : State → Status × State) (s : State) : Prop :=
  ∃ taken, s.input = taken ++ (action s).2.input ∧
    ∀ rest, action (s.withInput (taken ++ rest)) =
      ((action s).1, (action s).2.withInput rest)

/-- An action that keeps the input and does not look at it takes nothing. -/
theorem takesOnly_of_forall {action : State → Status × State} {s : State}
    (h : ∀ input, action (s.withInput input) = ((action s).1, (action s).2.withInput input)) :
    TakesOnly action s := by
  have hkept : action s = ((action s).1, (action s).2.withInput s.input) := h s.input
  refine ⟨[], ?_, h⟩
  rw [hkept]
  rfl

theorem takesOnly_withValue (s : State) (e : Expr) {next : Int64 → State → Status × State}
    (h : ∀ value s' input, next value (s'.withInput input) =
      ((next value s').1, (next value s').2.withInput input)) :
    TakesOnly (fun s => s.withValue e next) s := by
  refine takesOnly_of_forall fun input => ?_
  match hvalue : s.evaluate e with
  | (.ok value, s') =>
    simp only [withValue, hvalue, evaluate_withInput hvalue]
    exact h value s' input
  | (.error error, s') =>
    simp only [withValue, hvalue, evaluate_withInput hvalue]
    rfl

/-- Reading takes one word and leaves the others alone, unless there is none. -/
theorem takesOnly_readInto (s : State) (name : String) :
    s.readInto name = s.fail .endOfInput ∨ TakesOnly (fun s => s.readInto name) s := by
  obtain ⟨memory, input, output⟩ := s
  match input with
  | [] => exact Or.inl rfl
  | word :: input =>
    refine Or.inr ⟨[word], ?_, fun rest => ?_⟩
    · simp only [readInto]
      split <;> rfl
    · simp only [readInto, withInput, List.singleton_append]
      split <;> rfl

end State

namespace Statement

open State (TakesOnly takesOnly_of_forall takesOnly_withValue takesOnly_readInto)

theorem takesOnly_perform (statement : Statement) (s : State) :
    statement.perform s = s.fail .endOfInput ∨ TakesOnly statement.perform s := by
  cases statement with
  | read name => exact takesOnly_readInto s name
  | assign _ e | write e => exact Or.inr (takesOnly_withValue s e fun _ _ _ => rfl)
  | check e => exact Or.inr (takesOnly_withValue s e fun _ _ _ => rfl)
  | erroneous | branch _ _ | loop _ => exact Or.inr (takesOnly_of_forall fun _ => rfl)

/-- A statement that ends at once does the same whatever comes after the words it takes, unless it
finds no word to read. -/
theorem Concludes.takesOnly {statement : Statement} {s : State} {result : Status × State}
    (h : statement.Concludes s result) :
    result = s.fail .endOfInput ∨
      ∃ taken, s.input = taken ++ result.2.input ∧
        ∀ rest, statement.Concludes (s.withInput (taken ++ rest))
          (result.1, result.2.withInput rest) := by
  cases h with
  | simple hsimple =>
    refine (statement.takesOnly_perform s).imp_right ?_
    rintro ⟨taken, hinput, hsame⟩
    exact ⟨taken, hinput, fun rest => hsame rest ▸ .simple hsimple⟩
  | undecided herror =>
    refine Or.inr ⟨[], (State.input_of_evaluate herror).symm, fun rest => ?_⟩
    exact .undecided (State.evaluate_withInput herror rest)
  | skipped hvalue =>
    refine Or.inr ⟨[], (State.input_of_evaluate hvalue).symm, fun rest => ?_⟩
    exact .skipped (State.evaluate_withInput hvalue rest)

end Statement

/-! ## Machines -/

namespace Machine

variable {budget : Option Nat} {k : Nat} {m m' last : Machine} {emitted : Option Snapshot}
  {trace : List Snapshot}

def withInput (m : Machine) (input : List String) : Machine :=
  { m with state := m.state.withInput input }

/-- A `read` has found no word, and the machine only ends what is open. -/
def Starved (m : Machine) : Prop :=
  m.control = .leave .failed ∧ m.state.output.getLast? = some RuntimeError.endOfInput.message

/-- A move does the same whatever comes after the words it takes. -/
theorem Move.takesOnly (h : Move budget m emitted m') :
    m'.Starved ∨ ∃ taken, m.state.input = taken ++ m'.state.input ∧
      ∀ rest, ∃ emitted',
        Move budget (m.withInput (taken ++ rest)) emitted' (m'.withInput rest) := by
  cases h with
  | ended => exact Or.inr ⟨[], rfl, fun rest => ⟨_, .ended⟩⟩
  | refused hbudget => exact Or.inr ⟨[], rfl, fun rest => ⟨_, .refused hbudget⟩⟩
  | concluded hbudget hresult =>
    rcases hresult.takesOnly with rfl | ⟨taken, hinput, hsame⟩
    · exact Or.inl ⟨rfl, List.getLast?_concat⟩
    · exact Or.inr ⟨taken, hinput, fun rest => ⟨_, .concluded hbudget (hsame rest)⟩⟩
  | branched hbudget hvalue hne =>
    refine Or.inr ⟨[], (State.input_of_evaluate hvalue).symm, fun rest => ⟨none, ?_⟩⟩
    exact .branched hbudget (State.evaluate_withInput hvalue rest) hne
  | looped hbudget => exact Or.inr ⟨[], rfl, fun rest => ⟨_, .looped hbudget⟩⟩
  | closed => exact Or.inr ⟨[], rfl, fun rest => ⟨_, .closed⟩⟩
  | broken hstatus => exact Or.inr ⟨[], rfl, fun rest => ⟨_, .broken hstatus⟩⟩
  | stopped hbudget => exact Or.inr ⟨[], rfl, fun rest => ⟨_, .stopped hbudget⟩⟩
  | repeated hbudget => exact Or.inr ⟨[], rfl, fun rest => ⟨_, .repeated hbudget⟩⟩

/-- Lack of input is final. -/
theorem Path.starved (h : Path budget k m trace last) (hm : m.Starved) : last.Starved := by
  obtain ⟨hstate, _, hcontrol⟩ := h.of_failed hm.1
  exact ⟨hcontrol, hstate ▸ hm.2⟩

/-- A path that does not end for lack of input is one of the machine with any other words after
those that are taken on the way. -/
theorem Path.takesOnly (h : Path budget k m trace last) (hlast : ¬ last.Starved) :
    ∃ taken, m.state.input = taken ++ last.state.input ∧
      ∀ rest, ∃ trace',
        Path budget k (m.withInput (taken ++ rest)) trace' (last.withInput rest) := by
  induction h with
  | here m => exact ⟨[], rfl, fun rest => ⟨[], .here _⟩⟩
  | @move k m m' last emitted trace hmove hrest ih =>
    rcases hmove.takesOnly with hstarved | ⟨first, hfirst, hmove'⟩
    · exact absurd (hrest.starved hstarved) hlast
    · obtain ⟨later, hlater, hrest'⟩ := ih hlast
      refine ⟨first ++ later, ?_, fun rest => ?_⟩
      · rw [hfirst, hlater, List.append_assoc]
      · obtain ⟨emitted', hnow⟩ := hmove' (later ++ rest)
        obtain ⟨trace', hthen⟩ := hrest' rest
        rw [List.append_assoc]
        exact ⟨_, .move hnow hthen⟩

end Machine

/-! ## Runs -/

namespace Program

variable {program : Program} {input : List String} {limits : RunLimits} {r : Run}

/-- **Unread input has no influence.** A run that does not end for lack of input has taken some
words from the front of its input. With any other words after these, and any history or none, the
run ends as well, with the same status, the same steps, the same output and the same memory, and the
other words are left over. -/
theorem unread_input_is_irrelevant (hrun : program.runOn? input limits = some r)
    (hread : ¬ (r.status = .failed ∧
      r.state.output.getLast? = some "unexpected end of input")) :
    ∃ taken, input = taken ++ r.state.input ∧
      ∀ (rest : List String) (limit : Option Nat),
        ∃ r', program.runOn? (taken ++ rest) ⟨limit, limits.steps⟩ = some r' ∧
          r'.status = r.status ∧ r'.steps = r.steps ∧ r'.state.output = r.state.output ∧
          r'.state.memory = r.state.memory ∧ r'.state.input = rest := by
  obtain ⟨k, trace, last, status, hk, hpath, hend, rfl⟩ := Machine.run?_eq_some_iff.mp hrun
  have hlast : ¬ last.Starved := by
    rintro ⟨hcontrol, houtput⟩
    exact hread ⟨hend.unique ⟨hcontrol, hend.2⟩, houtput⟩
  obtain ⟨taken, hinput, hsame⟩ := hpath.takesOnly hlast
  refine ⟨taken, hinput, fun rest limit => ?_⟩
  obtain ⟨trace', hpath'⟩ := hsame rest
  exact ⟨_, Machine.run?_eq_some_iff.mpr ⟨k, trace', last.withInput rest, status, hk, hpath', hend,
    rfl⟩, rfl, rfl, rfl, rfl, rfl⟩

/-- The run of `untilZero` on a five and a zero, with a further word that is not read. -/
def untilZeroSpared : Run := ⟨⟨(Memory.empty.bind "x" 0).mark "x", ["9"], []⟩, .ongoing, 6, none⟩

/-- The run of `echo` on a number and a word that is none, with a further word that is not read. -/
def echoMisread : Run :=
  ⟨⟨(Memory.empty.bind "x" 5).mark "x", ["7"], ["5", "non-numeric input"]⟩, .failed, 5, none⟩

/-- `untilZero` leaves its loop before the last word, and `echo` fails at a word before the last;
the words after these make no difference, whether there are none or one that is no number. -/
theorem unread_input_is_irrelevant_spared :
    untilZero.runOn? ["5", "0", "9"] ⟨none, some 9⟩ = some untilZeroSpared ∧
    (∃ r, untilZero.runOn? ["5", "0", "nine", "9"] ⟨none, some 9⟩ = some r ∧
      r.status = .ongoing ∧ r.steps = 6 ∧ r.state.input = ["nine", "9"]) ∧
    echo.runOn? ["5", "six", "7"] ⟨none, some 9⟩ = some echoMisread ∧
    ∃ r, echo.runOn? ["5", "six"] ⟨none, some 9⟩ = some r ∧ r.status = .failed ∧ r.steps = 5 ∧
      r.state.output = ["5", "non-numeric input"] ∧ r.state.input = [] := by
  have hspared : untilZero.runOn? ["5", "0", "9"] ⟨none, some 9⟩ = some untilZeroSpared := by
    with_unfolding_all rfl
  have hmisread : echo.runOn? ["5", "six", "7"] ⟨none, some 9⟩ = some echoMisread := by
    with_unfolding_all rfl
  obtain ⟨taken, htaken, hsame⟩ := unread_input_is_irrelevant hspared (by decide)
  cases List.append_cancel_right (show ["5", "0"] ++ ["9"] = taken ++ ["9"] from htaken)
  obtain ⟨r, hr, hstatus, hsteps, _, _, hinput⟩ := hsame ["nine", "9"] none
  obtain ⟨taken', htaken', hsame'⟩ := unread_input_is_irrelevant hmisread (by decide)
  cases List.append_cancel_right (show ["5", "six"] ++ ["7"] = taken' ++ ["7"] from htaken')
  obtain ⟨r', hr', hstatus', hsteps', houtput', _, hinput'⟩ := hsame' [] none
  exact ⟨hspared, ⟨r, hr, hstatus, hsteps, hinput⟩, hmisread, r', hr', hstatus', hsteps', houtput',
    hinput'⟩

end Program

end StepCalc
