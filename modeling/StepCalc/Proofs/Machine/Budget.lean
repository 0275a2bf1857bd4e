import StepCalc.Proofs.Machine.Growth
import StepCalc.Proofs.Machine.Recording

/-!
# Budgets

With a budget every run ends: a potential goes down with every move (`Move.potential_lt`), so the
moves that a run is given suffice (`exists_runOn?_some`).

The budget only says where a run is cut short. A machine with a larger budget makes the same moves
up to the first step that the smaller one refuses; from there on the machine with the smaller budget
only ends what is open (`Path.loosen`). So a run that stays within its budget is the run with any
larger budget, and with none; and one that does not has come part of the way
(`larger_budget_goes_on`).
-/

namespace StepCalc

/-! ## Runs with a budget end -/

/-- The moves that a control can still cause by itself. -/
def Control.weight : Control → Nat
  | enter _ _ => 2
  | leave _ => 1

@[simp] theorem Control.weight_enter (statements : List Statement) (id : Nat) :
    (enter statements id).weight = 2 := rfl

@[simp] theorem Control.weight_leave (status : Status) : (leave status).weight = 1 := rfl

theorem Control.weight_pos (control : Control) : 0 < control.weight := by
  cases control with
  | enter _ _ => exact Nat.two_pos
  | leave _ => exact Nat.one_pos

theorem Control.weight_le (control : Control) : control.weight ≤ 2 := by
  cases control with
  | enter _ _ => exact Nat.le_refl 2
  | leave _ => exact Nat.le_succ 1

namespace Machine

variable {budget budget' : Option Nat} {m m' last : Machine} {emitted : Option Snapshot}
  {j k n : Nat} {trace : List Snapshot} {status : Status}

/-- A bound on the moves of a machine with the budget `n`. -/
def potential (n : Nat) (m : Machine) : Nat :=
  3 * (n + 1 - m.steps) + 2 * m.frames.length + m.control.weight

theorem Move.potential_lt (h : Move (some n) m emitted m') : m'.potential n < m.potential n := by
  cases h with
  | ended => exact Nat.lt_succ_self _
  | refused _ =>
    -- the budget may be spent for long, so it is the control that pays for the move
    simp only [potential, Control.weight_enter, Control.weight_leave]
    omega
  | @concluded _ steps id s rest _ result hbudget _ =>
    have hlt := hbudget n rfl
    have hle := (resume result.1 rest (id + s.size)).weight_le
    simp only [potential, Control.weight_enter]
    omega
  | branched hbudget _ _ | looped hbudget =>
    have hlt := hbudget n rfl
    simp only [potential, Control.weight_enter, List.length_cons]
    omega
  | @closed _ _ _ next status rest _ =>
    have hle := (resume status rest next).weight_le
    simp only [potential, Control.weight_leave, List.length_cons]
    omega
  | @broken _ _ _ next status _ rest _ _ =>
    have hle := (resume status.afterLoop rest next).weight_le
    simp only [potential, Control.weight_leave, List.length_cons]
    omega
  | stopped _ =>
    simp only [potential, Control.weight_leave, List.length_cons]
    omega
  | repeated hbudget =>
    have hlt := hbudget n rfl
    simp only [potential, Control.weight_enter, Control.weight_leave, List.length_cons]
    omega

/-- With a budget a machine gets to the end. -/
theorem exists_path_to_end (n : Nat) (m : Machine) :
    ∃ k trace last status, k < m.potential n ∧ Path (some n) k m trace last ∧
      last.Ended status := by
  induction hp : m.potential n using Nat.strongRecOn generalizing m with
  | ind p ih =>
    subst hp
    rcases exists_move_or_ended (some n) m with ⟨emitted, m', hmove⟩ | ⟨status, hend⟩
    · have hlt := hmove.potential_lt
      obtain ⟨k, trace, last, status, hk, hpath, hend⟩ := ih _ hlt m' rfl
      exact ⟨k + 1, _, last, status, by omega, .move hmove hpath, hend⟩
    · exact ⟨0, [], m, status, Nat.lt_add_left _ m.control.weight_pos, .here m, hend⟩

/-! ## Machines with different budgets -/

/-- Every step within the first budget is within the second. -/
def Looser (budget budget' : Option Nat) : Prop :=
  ∀ steps, Affords budget steps → Affords budget' steps

theorem looser_some {n n' : Nat} (h : n ≤ n') : Looser (some n) (some n') := by
  intro steps hsteps limit hlimit
  cases hlimit
  exact Nat.lt_of_lt_of_le (hsteps n rfl) h

theorem looser_none (budget : Option Nat) : Looser budget none := by
  intro steps _ limit hlimit
  cases hlimit

/-- Going from the first machine to the second, a step was refused. -/
structure Refused (budget : Option Nat) (m m' : Machine) : Prop where
  budget : ¬ Affords budget m.steps
  state : m'.state = m.state.limited
  steps : m'.steps = m.steps + 1
  control : m'.control = .leave .failed

theorem Refused.not_le (h : Refused (some n) m m') : ¬ m'.steps ≤ n := by
  intro hle
  have hlt : m.steps + 1 ≤ n := h.steps ▸ hle
  refine h.budget fun limit hlimit => ?_
  cases hlimit
  exact hlt

/-- A move is made with a larger budget as well, or its step was refused. -/
theorem Move.loosen (h : Move budget m emitted m') (hle : Looser budget budget') :
    (Move budget' m emitted m' ∧
      (m'.steps = m.steps ∨ m'.steps = m.steps + 1 ∧ Affords budget m.steps)) ∨
      Refused budget m m' := by
  cases h with
  | ended => exact Or.inl ⟨.ended, Or.inl rfl⟩
  | refused hbudget => exact Or.inr ⟨hbudget, rfl, rfl, rfl⟩
  | concluded hbudget hresult =>
    exact Or.inl ⟨.concluded (hle _ hbudget) hresult, Or.inr ⟨rfl, hbudget⟩⟩
  | branched hbudget hvalue hne =>
    exact Or.inl ⟨.branched (hle _ hbudget) hvalue hne, Or.inr ⟨rfl, hbudget⟩⟩
  | looped hbudget => exact Or.inl ⟨.looped (hle _ hbudget), Or.inr ⟨rfl, hbudget⟩⟩
  | closed => exact Or.inl ⟨.closed, Or.inl rfl⟩
  | broken hstatus => exact Or.inl ⟨.broken hstatus, Or.inl rfl⟩
  | stopped hbudget => exact Or.inr ⟨hbudget, rfl, rfl, rfl⟩
  | repeated hbudget => exact Or.inl ⟨.repeated (hle _ hbudget), Or.inr ⟨rfl, hbudget⟩⟩

/-- After an error a machine only ends what is open. -/
theorem Move.of_failed (h : Move budget m emitted m') (hfailed : m.control = .leave .failed) :
    m'.state = m.state ∧ m'.steps = m.steps ∧ m'.control = .leave .failed := by
  cases h with
  | closed | broken _ =>
    cases hfailed
    exact ⟨rfl, rfl, rfl⟩
  | _ => cases hfailed

theorem Path.of_failed (h : Path budget k m trace last) (hfailed : m.control = .leave .failed) :
    last.state = m.state ∧ last.steps = m.steps ∧ last.control = .leave .failed := by
  induction h with
  | here m => exact ⟨rfl, rfl, hfailed⟩
  | move hmove _ ih =>
    obtain ⟨hstate, hsteps, hcontrol⟩ := hmove.of_failed hfailed
    rw [← hstate, ← hsteps]
    exact ih hcontrol

/-- A path is one of a machine with a larger budget as well, or it leaves such a path where a step
is refused. -/
theorem Path.loosen (h : Path (some n) k m trace last) (hle : Looser (some n) budget')
    (hsteps : m.steps ≤ n) :
    (Path budget' k m trace last ∧ last.steps ≤ n) ∨
      ∃ j trace' stop, Path budget' j m trace' stop ∧ Refused (some n) stop last := by
  induction h with
  | here m => exact Or.inl ⟨.here m, hsteps⟩
  | @move k m m' last emitted trace hmove hrest ih =>
    rcases hmove.loosen hle with ⟨hmove', hcharged⟩ | hrefused
    · have hsteps' : m'.steps ≤ n := by
        rcases hcharged with hsame | ⟨hmore, hbudget⟩
        · exact hsame ▸ hsteps
        · exact hmore ▸ hbudget n rfl
      rcases ih hsteps' with ⟨hpath, hlast⟩ | ⟨j, trace', stop, hpath, hrefused⟩
      · exact Or.inl ⟨.move hmove' hpath, hlast⟩
      · exact Or.inr ⟨j + 1, _, stop, .move hmove' hpath, hrefused⟩
    · -- the smaller budget is spent here: all that follows keeps the state of the refusal
      obtain ⟨hstate, hsteps', hcontrol⟩ := hrest.of_failed hrefused.control
      exact Or.inr ⟨0, [], m, .here m, hrefused.budget, hstate.trans hrefused.state,
        hsteps'.trans hrefused.steps, hcontrol⟩

/-- What a machine passes on the way is on every path to the end. -/
theorem Path.rest (h : Path budget j m trace m') {trace' : List Snapshot}
    (h' : Path budget k m trace' last) (hend : last.Ended status) :
    ∃ i rest, Path budget i m' rest last := by
  induction h generalizing k trace' with
  | here m => exact ⟨k, trace', h'⟩
  | move hmove _ ih =>
    obtain ⟨_, _, _, hrest, _⟩ := h'.of_move hend hmove
    exact ih hrest

end Machine

/-! ## Runs with different budgets -/

/-- The first run was stopped by its budget somewhere on the way of the second. -/
structure Run.CutShort (short long : Run) : Prop where
  status : short.status = .failed
  output : ∃ before, short.state.output = before ++ ["step limit exceeded"] ∧
    before <+: long.state.output
  input : long.state.input <:+ short.state.input
  names : short.state.memory.names <+: long.state.memory.names

/-- A run that ends with a refusal is cut short if the second one goes on from there. -/
theorem Run.cutShort_of_extends {short long : Run} {st : State} (hstate : short.state = st.limited)
    (hstatus : short.status = .failed) (hextends : st.Extends long.state) :
    short.CutShort long where
  status := hstatus
  output := ⟨st.output, by rw [hstate]; rfl, hextends.output⟩
  input := by
    rw [hstate]
    exact hextends.input
  names := by
    rw [hstate]
    exact hextends.names

/-- A run with the budget `n` is the second run, if it stayed within its budget; otherwise it was
cut short. -/
def Run.AgreesWithin (n : Nat) (short long : Run) : Prop :=
  if short.steps ≤ n then long.outcome = short.outcome else short.CutShort long

namespace Program

open Machine (Looser looser_some looser_none movesFor)

variable {program : Program} {input : List String} {n : Nat} {limit limit' budget : Option Nat}
  {a b : Run}

/-- A run with a budget ends. -/
theorem exists_runOn?_some (program : Program) (input : List String) (n : Nat)
    (limit : Option Nat) : ∃ r, program.runOn? input ⟨limit, some n⟩ = some r := by
  obtain ⟨k, trace, last, status, hk, hpath, hend⟩ :=
    Machine.exists_path_to_end n (.initial program input)
  have hmoves : k < movesFor (some n) := by
    simp only [Machine.potential, Machine.initial, Control.weight_enter, List.length_nil] at hk
    simp only [movesFor, Option.getD_some]
    omega
  exact ⟨_, Machine.run?_eq_some_iff.mpr ⟨k, trace, last, status, hmoves, hpath, hend, rfl⟩⟩

theorem agreesWithin_of_looser (ha : program.runOn? input ⟨limit, some n⟩ = some a)
    (hb : program.runOn? input ⟨limit', budget⟩ = some b) (hle : Looser (some n) budget) :
    a.AgreesWithin n b := by
  obtain ⟨k, trace, last, status, _, hpath, hend, rfl⟩ := Machine.run?_eq_some_iff.mp ha
  obtain ⟨k', trace', last', status', _, hpath', hend', rfl⟩ := Machine.run?_eq_some_iff.mp hb
  unfold Run.AgreesWithin
  rcases hpath.loosen hle (Nat.zero_le n) with ⟨hlong, hsteps⟩ | ⟨j, before, stop, hstop, hrefused⟩
  · rw [if_pos hsteps]
    obtain ⟨_, rfl⟩ := hlong.unique hend hpath' hend'
    rw [hend.unique hend']
    rfl
  · rw [if_neg hrefused.not_le]
    obtain ⟨_, _, hrest⟩ := hstop.rest hpath' hend'
    exact Run.cutShort_of_extends hrefused.state (hend.unique ⟨hrefused.control, hend.2⟩)
      hrest.state_extends

/-- A run that stays within its budget ends with a larger one as well, given as many moves. -/
theorem exists_runOn?_of_within (ha : program.runOn? input ⟨limit, some n⟩ = some a)
    (hsteps : a.steps ≤ n) (hle : Looser (some n) budget)
    (hmoves : movesFor (some n) ≤ movesFor budget) (limit' : Option Nat) :
    ∃ b, program.runOn? input ⟨limit', budget⟩ = some b := by
  obtain ⟨k, trace, last, status, hk, hpath, hend, rfl⟩ := Machine.run?_eq_some_iff.mp ha
  rcases hpath.loosen hle (Nat.zero_le n) with ⟨hlong, _⟩ | ⟨j, before, stop, _, hrefused⟩
  · exact ⟨_, Machine.run?_eq_some_iff.mpr ⟨k, trace, last, status,
      Nat.lt_of_lt_of_le hk hmoves, hlong, hend, rfl⟩⟩
  · exact absurd hsteps hrefused.not_le

/-- **A larger budget goes on where a smaller one stops.** A run with the budget `n` ends. If it
charges no more than `n` steps, it is the run with any larger budget, and with none, which then ends
as well; and otherwise it was cut short on the way of these. -/
theorem larger_budget_goes_on (program : Program) (input : List String) (n : Nat)
    (limit limit' : Option Nat) :
    ∃ a, program.runOn? input ⟨limit, some n⟩ = some a ∧
      (∀ m, n ≤ m →
        ∃ b, program.runOn? input ⟨limit', some m⟩ = some b ∧ a.AgreesWithin n b) ∧
      (∀ b, program.runOn? input ⟨limit', none⟩ = some b → a.AgreesWithin n b) ∧
      (n ≤ maxCount → a.steps ≤ n → ∃ b, program.runOn? input ⟨limit', none⟩ = some b) := by
  obtain ⟨a, ha⟩ := exists_runOn?_some program input n limit
  refine ⟨a, ha, fun m hle => ?_, fun b hb => agreesWithin_of_looser ha hb (looser_none _),
    fun hcount hsteps => ?_⟩
  · obtain ⟨b, hb⟩ := exists_runOn?_some program input m limit'
    exact ⟨b, hb, agreesWithin_of_looser ha hb (looser_some hle)⟩
  · refine exists_runOn?_of_within ha hsteps (looser_none _) ?_ limit'
    exact Nat.add_le_add_right (Nat.mul_le_mul_left 3 hcount) 6

def echo : Program := ⟨[.loop [.read "x", .write (.ident "x")]]⟩

/-- The run of `echo` with the budget 4: there is no step left to read the second word. -/
def echoShort : Run :=
  ⟨⟨(Memory.empty.bind "x" 5).mark "x", ["7"], ["5", "step limit exceeded"]⟩, .failed, 5, none⟩

/-- The run of `echo` with the budget 6: there is no step left to repeat the body again. -/
def echoLong : Run :=
  ⟨⟨(Memory.empty.bind "x" 7).mark "x", [], ["5", "7", "step limit exceeded"]⟩, .failed, 7, none⟩

/-- The run of `echo` with the budget 9: it ends before that. -/
def echoWhole : Run :=
  ⟨⟨(Memory.empty.bind "x" 7).mark "x", [], ["5", "7", "unexpected end of input"]⟩, .failed, 8,
    none⟩

/-- `echo` on two words is cut short by small budgets; a budget of 9 is as good as none. -/
theorem larger_budget_goes_on_echo :
    echo.runOn? ["5", "7"] ⟨none, some 4⟩ = some echoShort ∧
    echo.runOn? ["5", "7"] ⟨none, some 6⟩ = some echoLong ∧ echoShort.CutShort echoLong ∧
    echo.runOn? ["5", "7"] ⟨none, some 9⟩ = some echoWhole ∧ echoShort.CutShort echoWhole ∧
    ∃ r, echo.runOn? ["5", "7"] ⟨none, none⟩ = some r ∧ r.outcome = echoWhole.outcome := by
  have hshort : echo.runOn? ["5", "7"] ⟨none, some 4⟩ = some echoShort := by
    with_unfolding_all rfl
  have hlong : echo.runOn? ["5", "7"] ⟨none, some 6⟩ = some echoLong := by
    with_unfolding_all rfl
  have hwhole : echo.runOn? ["5", "7"] ⟨none, some 9⟩ = some echoWhole := by
    with_unfolding_all rfl
  obtain ⟨a, ha, hlarger, _⟩ := larger_budget_goes_on echo ["5", "7"] 4 none none
  cases hshort.symm.trans ha
  obtain ⟨b, hb, hcut⟩ := hlarger 6 (by decide)
  cases hlong.symm.trans hb
  obtain ⟨c, hc, hcut'⟩ := hlarger 9 (by decide)
  cases hwhole.symm.trans hc
  obtain ⟨d, hd, _, hagrees, hends⟩ := larger_budget_goes_on echo ["5", "7"] 9 none none
  cases hwhole.symm.trans hd
  obtain ⟨r, hr⟩ := hends (by decide) (by decide)
  exact ⟨hshort, hlong, hcut, hwhole, hcut', r, hr, hagrees r hr⟩

end Program

end StepCalc
