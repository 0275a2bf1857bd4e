import Mathlib.Data.List.Chain
import StepCalc.Proofs.Machine.Calls
import StepCalc.Proofs.Machine.Effects

/-!
# What changes from snapshot to snapshot

Between two snapshots a machine evaluates conditions and repeats loop bodies, which changes nothing
that a snapshot shows but the marks of used variables (`Move.visible_of_silent`). The move that
emits the second snapshot makes one change: it takes at most one word, writes at most one, and binds
a variable only if the statement of the snapshot is an assignment to it or reads it
(`Move.changesLittle`). So a history changes little by little (`snapshots_change_little`).
-/

namespace StepCalc

/-! ## Bindings -/

/-- The bindings with `name` bound to `value`: in its place, or at the end if it is new. -/
def rebind (bindings : List (String × Int64)) (name : String) (value : Int64) :
    List (String × Int64) :=
  if name ∈ bindings.map Prod.fst then
    bindings.map fun binding => if binding.1 = name then (name, value) else binding
  else bindings ++ [(name, value)]

namespace Memory

variable (m : Memory) (name : String) (value : Int64)

theorem bindings_bind : (m.bind name value).bindings = rebind m.bindings name value := by
  unfold bind rebind
  rw [← names_eq_map_bindings]
  by_cases hmem : name ∈ m.names
  · rw [dif_pos ((m.any_name_iff name).mpr hmem), if_pos hmem]
    simp only [bindings, mapCells, List.map_map]
    refine List.map_congr_left fun c _ => ?_
    simp only [Function.comp_apply]
    split <;> rfl
  · rw [dif_neg (mt (m.any_name_iff name).mp hmem), if_neg hmem]
    simp [bindings]

end Memory

/-- Binding leaves the names as they are, or adds a new one at the end. -/
theorem map_fst_rebind (bindings : List (String × Int64)) (name : String) (value : Int64) :
    (rebind bindings name value).map Prod.fst = bindings.map Prod.fst ∨
      (rebind bindings name value).map Prod.fst = bindings.map Prod.fst ++ [name] := by
  unfold rebind
  by_cases hmem : name ∈ bindings.map Prod.fst
  · left
    rw [if_pos hmem, List.map_map]
    refine List.map_congr_left fun binding _ => ?_
    rw [Function.comp_apply]
    split
    case isTrue hname => exact hname.symm
    case isFalse => rfl
  · right
    rw [if_neg hmem, List.map_append]
    rfl

/-! ## States -/

/-- What a state shows, apart from which variables are used. -/
def State.visible (s : State) : List (String × Int64) × List String × List String :=
  (s.memory.bindings, s.input, s.output)

theorem State.visible_of_evaluate {s s' : State} {e : Expr} {result : Except RuntimeError Int64}
    (h : s.evaluate e = (result, s')) : s'.visible = s.visible := by
  obtain ⟨memory, hbindings, rfl⟩ := exists_memory_of_evaluate h
  exact congrArg (·, s.input, s.output) hbindings

/-- The second state comes from the first by taking at most one word, writing at most one and
binding at most the variable `target?`. -/
structure State.ChangesLittle (target? : Option String) (s s' : State) : Prop where
  input : s'.input = s.input ∨ ∃ word, s.input = word :: s'.input
  output : s'.output = s.output ∨ ∃ word, s'.output = s.output ++ [word]
  bindings : s'.memory.bindings = s.memory.bindings ∨
    ∃ name value, target? = some name ∧
      s'.memory.bindings = rebind s.memory.bindings name value

namespace State

variable {target? : Option String} {s s' s'' : State}

theorem ChangesLittle.of_visible (h : s.ChangesLittle target? s')
    (hsame : s.visible = s''.visible) : s''.ChangesLittle target? s' := by
  obtain ⟨hbindings, hrest⟩ := Prod.mk.inj hsame
  obtain ⟨hinput, houtput⟩ := Prod.mk.inj hrest
  exact ⟨hinput ▸ h.input, houtput ▸ h.output, hbindings ▸ h.bindings⟩

theorem changesLittle_refl (target? : Option String) (s : State) : s.ChangesLittle target? s :=
  ⟨Or.inl rfl, Or.inl rfl, Or.inl rfl⟩

theorem changesLittle_fail (target? : Option String) (s : State) (error : RuntimeError) :
    s.ChangesLittle target? (s.fail error).2 :=
  ⟨Or.inl rfl, Or.inr ⟨error.message, rfl⟩, Or.inl rfl⟩

/-- Variables keep their places. -/
theorem ChangesLittle.names_beginning (h : s.ChangesLittle target? s') :
    s.memory.names <+: s'.memory.names := by
  rw [Memory.names_eq_map_bindings, Memory.names_eq_map_bindings]
  rcases h.bindings with hsame | ⟨name, value, _, hbound⟩
  · exact hsame ▸ List.prefix_rfl
  · rw [hbound]
    rcases map_fst_rebind s.memory.bindings name value with hnames | hnames
    · exact hnames ▸ List.prefix_rfl
    · exact hnames ▸ List.prefix_append _ _

end State

def Statement.target? : Statement → Option String
  | assign name _ | read name => some name
  | _ => none

theorem Statement.Effect.changesLittle {statement : Statement} {s : State}
    {result : Status × State} (h : statement.Effect s result) :
    s.ChangesLittle statement.target? result.2 := by
  cases h with
  | passed hbindings | exited hbindings => exact ⟨Or.inl rfl, Or.inl rfl, Or.inl hbindings⟩
  | @assigned name _ _ memory value hbindings =>
    refine ⟨Or.inl rfl, Or.inl rfl, Or.inr ⟨name, value, rfl, ?_⟩⟩
    rw [Memory.bindings_bind, hbindings]
  | @written _ _ _ value hbindings =>
    exact ⟨Or.inl rfl, Or.inr ⟨showInt64 value, rfl⟩, Or.inl hbindings⟩
  | @taken name word memory _ _ value _ =>
    exact ⟨Or.inr ⟨word, rfl⟩, Or.inl rfl,
      Or.inr ⟨name, value, rfl, memory.bindings_bind name value⟩⟩
  | @stuck _ _ _ error hbindings _ =>
    exact ⟨Or.inl rfl, Or.inr ⟨error.message, rfl⟩, Or.inl hbindings⟩
  | starved | erroneous => exact State.changesLittle_fail _ _ _
  | @misread _ word => exact ⟨Or.inr ⟨word, rfl⟩, Or.inr ⟨_, rfl⟩, Or.inl rfl⟩

/-! ## Moves -/

/-- The variable that the statement of a snapshot binds. -/
def Program.target? (program : Program) (s : Snapshot) : Option String :=
  s.statement.bind fun id => program.preorder[id]?.bind Statement.target?

/-- The second snapshot differs from the first by what its statement does at most, and variables
keep their places. -/
def Program.OneChange (program : Program) (s s' : Snapshot) : Prop :=
  s.state.ChangesLittle (program.target? s') s'.state ∧
    s.state.memory.names <+: s'.state.memory.names

namespace Machine

variable {program : Program} {budget : Option Nat} {k : Nat} {m m' last : Machine}
  {trace : List Snapshot}

theorem Move.visible_of_silent (h : Move budget m none m') :
    m'.state.visible = m.state.visible := by
  cases h with
  | ended | looped _ | repeated _ => rfl
  | branched _ hvalue _ => exact State.visible_of_evaluate hvalue

theorem Move.changesLittle {snapshot : Snapshot} (h : Move budget m (some snapshot) m')
    (hm : m.Placed program) : m.state.ChangesLittle (program.target? snapshot) snapshot.state := by
  cases h with
  | refused _ | stopped _ => exact State.changesLittle_fail _ _ _
  | closed | broken _ => exact State.changesLittle_refl _ _
  | @concluded st n id s rest frames result hbudget hresult =>
    have hstatement : program.preorder[id]? = some s := (Program.Occurs.cons hm.control).1
    have htarget : program.target? ⟨some id, result.2, result.1⟩ = s.target? := by
      simp only [Program.target?, Option.bind_some, hstatement]
    rw [htarget]
    exact hresult.effect.changesLittle

/-- From a snapshot that shows the machine on, what is emitted changes little by little. -/
theorem Path.isChain_oneChange (h : Path budget k m trace last) (hm : m.Placed program)
    {s : Snapshot} (hs : m.state.visible = s.state.visible) :
    (s :: trace).IsChain program.OneChange := by
  induction h generalizing s with
  | here m => exact List.isChain_singleton s
  | @move k m m' last emitted trace hmove _ ih =>
    cases emitted with
    | none => exact ih (hmove.placed hm) (hmove.visible_of_silent.trans hs)
    | some snapshot =>
      have hchange := (hmove.changesLittle hm).of_visible hs
      have hstate := hmove.of_emitted.1
      refine List.isChain_cons_cons.mpr ⟨⟨hchange, hchange.names_beginning⟩, ?_⟩
      exact ih (hmove.placed hm) (congrArg State.visible hstate)

end Machine

/-! ## Histories -/

namespace Program

variable {program : Program} {input : List String}

/-- Each snapshot changes little from the one before, and variables have one cell each. -/
structure Gradual (program : Program) (snapshots : List Snapshot) : Prop where
  changes : snapshots.IsChain program.OneChange
  distinct : ∀ s ∈ snapshots, s.state.memory.names.Nodup

theorem gradual_trace (program : Program) (input : List String) (budget : Option Nat)
    (moves : Nat) :
    program.Gradual (.initial input :: (Machine.initial program input).trace budget moves) := by
  obtain ⟨k, last, hpath⟩ := Machine.exists_path_trace budget moves (.initial program input)
  have hchain := hpath.isChain_oneChange (Machine.placed_initial program input)
    (s := .initial input) rfl
  exact ⟨hchain, fun s _ => s.state.memory.distinct⟩

theorem Gradual.of_beginning {snapshots kept : List Snapshot} (h : program.Gradual snapshots)
    (hkept : kept <+: snapshots) : program.Gradual kept where
  changes := h.changes.prefix hkept
  distinct := fun s hs => h.distinct s (hkept.mem hs)

/-- **Snapshots change little by little.** From one snapshot of a run to the next at most one input
word is taken and at most one output word is written; the variables and their values stay the same,
or one is bound, and then the statement of the snapshot is an assignment to it or reads it; no
variable is listed twice, and those that there were keep their places. This holds of all that is
emitted, also in a run that does not end, and so of every history. -/
theorem snapshots_change_little (program : Program) (input : List String) (budget : Option Nat) :
    (∀ moves, program.Gradual
      (.initial input :: (Machine.initial program input).trace budget moves)) ∧
    ∀ limit r history, program.runOn? input ⟨limit, budget⟩ = some r →
      r.history = some history → program.Gradual history.snapshots.toList := by
  refine ⟨gradual_trace program input budget, fun limit r history hrun hhistory => ?_⟩
  have hbeginning := (beginning_of_recorded hrun hhistory).1
  exact (gradual_trace program input budget (Machine.movesFor budget)).of_beginning hbeginning

/-- Writes a number and those below it. -/
def countdown : Program :=
  ⟨[.read "n", .loop [.check (.ident "n"), .write (.ident "n"),
    .assign "n" (.binary .sub (.ident "n") (.number "1"))]]⟩

/-- Only the read and the two assignments change the value of the variable. -/
theorem snapshots_change_little_countdown :
    ∃ r history, countdown.runOn? ["2"] ⟨some 5000, some 40⟩ = some r ∧
      r.history = some history ∧
      history.snapshots.toList.map (fun s => s.state.memory.bindings) =
        [[], [("n", 2)], [("n", 2)], [("n", 2)], [("n", 1)], [("n", 1)], [("n", 1)], [("n", 0)],
          [("n", 0)], [("n", 0)]] ∧
      countdown.Gradual history.snapshots.toList := by
  have hfacts : (((countdown.runOn? ["2"] ⟨some 5000, some 40⟩).bind Run.history).map
      fun history => history.snapshots.toList.map fun s => s.state.memory.bindings) =
      some [[], [("n", 2)], [("n", 2)], [("n", 2)], [("n", 1)], [("n", 1)], [("n", 1)], [("n", 0)],
        [("n", 0)], [("n", 0)]] := by
    decide +kernel
  obtain ⟨history, hrecorded, hbindings⟩ := Option.map_eq_some_iff.mp hfacts
  obtain ⟨r, hrun, hhistory⟩ := Option.bind_eq_some_iff.mp hrecorded
  have hgradual := (snapshots_change_little countdown ["2"] (some 40)).2 (some 5000) r history hrun
    hhistory
  exact ⟨r, history, hrun, hhistory, hbindings, hgradual⟩

end Program

end StepCalc
