import StepCalc.Proofs.Machine.ExactValue
import StepCalc.Proofs.Machine.Moves

/-!
# What a run leaves behind

A run never takes anything back: output words are added at the end, input words are taken from the
front, and variables keep their places. `State.Extends` says so of two states; it holds along every
path of a machine (`Machine.Path.state_extends`). Evaluating an expression does not even change a
value: it only marks variables as used (`Expr.bindings_evaluate`).
-/

namespace StepCalc

/-! ## Memory -/

namespace Memory

def names (m : Memory) : List String := m.cells.map Cell.name

/-- The variables with their values, in order. -/
def bindings (m : Memory) : List (String × Int64) := m.cells.map fun c => (c.name, c.value)

theorem names_eq_map_bindings (m : Memory) : m.names = m.bindings.map Prod.fst := by
  rw [bindings, List.map_map]
  rfl

theorem bindings_marking (m : Memory) (names : List String) :
    (m.marking names).bindings = m.bindings := by
  rw [marking, bindings, mapCells, List.map_map]
  rfl

theorem any_name_iff (m : Memory) (name : String) :
    (m.cells.any fun c => c.name == name) = true ↔ name ∈ m.names := by
  simp [names]

/-- A name that is bound again keeps its place; a new one comes last. -/
theorem names_bind (m : Memory) (name : String) (value : Int64) :
    (m.bind name value).names = if name ∈ m.names then m.names else m.names ++ [name] := by
  unfold bind
  by_cases hmem : name ∈ m.names
  · rw [dif_pos ((m.any_name_iff name).mpr hmem), if_pos hmem, names, names, mapCells,
      List.map_map]
    refine List.map_congr_left fun c _ => ?_
    rw [Function.comp_apply]
    split
    case isTrue h => exact h.symm
    case isFalse => rfl
  · rw [dif_neg (mt (m.any_name_iff name).mp hmem), if_neg hmem, names, List.map_append]
    rfl

theorem names_beginning_bind (m : Memory) (name : String) (value : Int64) :
    m.names <+: (m.bind name value).names := by
  rw [names_bind]
  split
  · exact List.prefix_rfl
  · exact List.prefix_append _ _

end Memory

/-! ## Evaluation -/

/-- Evaluating an expression changes no variable. -/
theorem Expr.bindings_evaluate (e : Expr) (m : Memory) :
    (e.evaluate m).2.bindings = m.bindings := by
  rw [e.evaluate_snd m, m.bindings_marking]

/-! ## States -/

/-- What has been read, written and bound by the first state still is so in the second. -/
structure State.Extends (s s' : State) : Prop where
  names : s.memory.names <+: s'.memory.names
  input : s'.input <:+ s.input
  output : s.output <+: s'.output

namespace State

variable {s s' s'' : State}

theorem Extends.refl (s : State) : s.Extends s :=
  ⟨List.prefix_rfl, List.suffix_rfl, List.prefix_rfl⟩

theorem Extends.trans (h : s.Extends s') (h' : s'.Extends s'') : s.Extends s'' where
  names := h.names.trans h'.names
  input := h'.input.trans h.input
  output := h.output.trans h'.output

theorem extends_of_evaluate {e : Expr} {result : Except RuntimeError Int64}
    (h : s.evaluate e = (result, s')) : s.Extends s' := by
  obtain ⟨_, rfl⟩ := Prod.mk.inj h
  refine ⟨?_, List.suffix_rfl, List.prefix_rfl⟩
  simp only [Memory.names_eq_map_bindings, e.bindings_evaluate]
  exact List.prefix_rfl

theorem extends_fail (s : State) (error : RuntimeError) : s.Extends (s.fail error).2 where
  names := List.prefix_rfl
  input := List.suffix_rfl
  output := List.prefix_append _ _

theorem extends_bind (s : State) (name : String) (value : Int64) :
    s.Extends { s with memory := s.memory.bind name value } where
  names := s.memory.names_beginning_bind name value
  input := List.suffix_rfl
  output := List.prefix_rfl

theorem extends_withValue (s : State) (e : Expr) {next : Int64 → State → Status × State}
    (h : ∀ (value : Int64) (s' : State), s'.Extends (next value s').2) :
    s.Extends (s.withValue e next).2 := by
  unfold withValue
  split
  case h_1 value s' hvalue => exact (extends_of_evaluate hvalue).trans (h value s')
  case h_2 error s' hvalue => exact (extends_of_evaluate hvalue).trans (s'.extends_fail error)

theorem extends_readInto (s : State) (name : String) : s.Extends (s.readInto name).2 := by
  unfold readInto
  split
  case h_1 => exact s.extends_fail _
  case h_2 word input hinput =>
    have htake : s.Extends { s with input } :=
      ⟨List.prefix_rfl, hinput ▸ List.suffix_cons word input, List.prefix_rfl⟩
    dsimp only
    split
    · exact htake.trans (extends_bind _ name _)
    · exact htake.trans (extends_fail _ _)

end State

theorem Statement.extends_perform (statement : Statement) (s : State) :
    s.Extends (statement.perform s).2 := by
  cases statement with
  | assign name e => exact s.extends_withValue e fun value s' => s'.extends_bind name value
  | read name => exact s.extends_readInto name
  | write e =>
    exact s.extends_withValue e fun value s' =>
      ⟨List.prefix_rfl, List.suffix_rfl, List.prefix_append _ _⟩
  | check e => exact s.extends_withValue e fun value s' => .refl s'
  | erroneous => exact s.extends_fail _
  | branch _ _ => exact .refl s
  | loop _ => exact .refl s

theorem Statement.Concludes.state_extends {statement : Statement} {s : State} {result : Status × State}
    (h : statement.Concludes s result) : s.Extends result.2 := by
  cases h with
  | simple _ => exact statement.extends_perform s
  | undecided hvalue => exact (State.extends_of_evaluate hvalue).trans (State.extends_fail _ _)
  | skipped hvalue => exact State.extends_of_evaluate hvalue

/-! ## Runs -/

namespace Machine

variable {budget : Option Nat} {k : Nat} {m m' : Machine}

theorem Move.state_extends {emitted : Option Snapshot} (h : Move budget m emitted m') :
    m.state.Extends m'.state := by
  cases h with
  | ended | looped _ | closed | broken _ | repeated _ => exact .refl _
  | refused _ | stopped _ => exact State.extends_fail _ _
  | concluded _ hresult => exact hresult.state_extends
  | branched _ hvalue _ => exact State.extends_of_evaluate hvalue

/-- Nothing is taken back on the way. -/
theorem Path.state_extends {trace : List Snapshot} (h : Path budget k m trace m') :
    m.state.Extends m'.state := by
  induction h with
  | here m => exact .refl m.state
  | move hmove _ ih => exact hmove.state_extends.trans ih

end Machine

end StepCalc
