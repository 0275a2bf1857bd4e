import Mathlib.Data.List.DropRight
import Mathlib.Data.List.Induction
import StepCalc.Proofs.FirstOccurrences
import StepCalc.Proofs.Machine.Growth

/-!
# A memory sums up its log

A log lists operations on a memory, the oldest first. All that a memory holds after them can be read
off the log: which names were bound, in the order in which each was first bound, to what each was
bound last, and whether it has been looked up since then.

`Memory.Summarizes` says so. Every operation keeps it (`Summarizes.perform`), so it holds after
every log, and the answers on the way are those that the log up to there gives
(`memory_summarizes_log`).
-/

namespace StepCalc

namespace Memory

/-! ## Logs -/

inductive Operation where
  | bind (name : String) (value : Int64)
  /-- Asks for a value and marks the name as used. -/
  | lookup (name : String)
  /-- Asks for a value. -/
  | get (name : String)
deriving DecidableEq

/-- The answer to an operation, and the memory afterwards. Binding has no answer. -/
def perform (m : Memory) : Operation → Option Int64 × Memory
  | .bind name value => (none, m.bind name value)
  | .lookup name => m.lookup name
  | .get name => (m.get? name, m)

def after (m : Memory) (log : List Operation) : Memory := log.foldl (fun m op => (m.perform op).2) m

/-- The answers to the operations of a log, one by one. -/
def answers (m : Memory) : List Operation → List (Option Int64)
  | [] => []
  | op :: log => (m.perform op).1 :: (m.perform op).2.answers log

namespace Operation

def bound? : Operation → Option String
  | bind name _ => some name
  | _ => none

/-- The value that an operation binds `name` to. -/
def valueFor? (name : String) : Operation → Option Int64
  | bind bound value => if bound = name then some value else none
  | _ => none

def asked? : Operation → Option String
  | lookup name | get name => some name
  | _ => none

end Operation

/-- The names that a log binds, in the order in which each is first bound. -/
def boundNames (log : List Operation) : List String := (log.filterMap Operation.bound?).eraseDups

/-- The value that `name` is last bound to. -/
def lastValue? (log : List Operation) (name : String) : Option Int64 :=
  (log.filterMap (Operation.valueFor? name)).getLast?

/-- The operations after the last one that binds `name`. -/
def sinceBound (log : List Operation) (name : String) : List Operation :=
  log.rtakeWhile fun op => op.bound? ≠ some name

/-- The cells are those that a log leaves behind. -/
structure Summarizes (m : Memory) (log : List Operation) : Prop where
  /-- There is one cell for each bound name, in the order of first binding. -/
  names : m.names = boundNames log
  value : ∀ c ∈ m.cells, lastValue? log c.name = some c.value
  used : ∀ c ∈ m.cells, (c.used = true ↔ .lookup c.name ∈ sinceBound log c.name)

/-! ## One more operation -/

section

variable (log : List Operation) (op : Operation) (name : String)

theorem boundNames_concat :
    boundNames (log ++ [op]) = match op.bound? with
      | some name => if name ∈ boundNames log then boundNames log else boundNames log ++ [name]
      | none => boundNames log := by
  unfold boundNames
  rw [List.filterMap_append]
  cases hbound : op.bound? with
  | none => simp [hbound]
  | some name =>
    rw [List.filterMap_cons_some hbound, List.filterMap_nil, eraseDups_concat]
    simp only [List.mem_eraseDups]

theorem lastValue?_concat :
    lastValue? (log ++ [op]) name = (op.valueFor? name).or (lastValue? log name) := by
  unfold lastValue?
  rw [List.filterMap_append, List.getLast?_append]
  cases hvalue : op.valueFor? name with
  | none => simp [hvalue]
  | some value => simp [hvalue]

theorem lookup_mem_sinceBound_concat :
    .lookup name ∈ sinceBound (log ++ [op]) name ↔
      op.bound? ≠ some name ∧ (.lookup name ∈ sinceBound log name ∨ op = .lookup name) := by
  unfold sinceBound
  rw [List.rtakeWhile_concat]
  by_cases hbound : op.bound? = some name
  · simp [hbound]
  · simp [hbound, eq_comm]

/-- A name has a value exactly if it is bound. -/
theorem lastValue?_eq_none_iff : lastValue? log name = none ↔ name ∉ boundNames log := by
  unfold lastValue? boundNames
  rw [List.getLast?_eq_none_iff, List.mem_eraseDups, List.filterMap_eq_nil_iff, List.mem_filterMap]
  push Not
  refine forall₂_congr fun op _ => ?_
  cases op with
  | bind bound value => simp [Operation.valueFor?, Operation.bound?]
  | lookup _ | get _ => simp [Operation.valueFor?, Operation.bound?]

end

/-! ## Cells -/

section

variable {m : Memory} {name : String} {c : Cell}

theorem mem_cells_bind {value : Int64} (h : c ∈ (m.bind name value).cells) :
    c = ⟨name, value, false⟩ ∨ c.name ≠ name ∧ c ∈ m.cells := by
  unfold bind at h
  split at h
  case isTrue =>
    obtain ⟨old, hold, rfl⟩ := List.mem_map.mp h
    split
    case isTrue => exact Or.inl rfl
    case isFalse hname => exact Or.inr ⟨hname, hold⟩
  case isFalse hnew =>
    rcases List.mem_append.mp h with hold | hlast
    · refine Or.inr ⟨fun hname => hnew ?_, hold⟩
      exact (m.any_name_iff name).mpr (hname ▸ List.mem_map_of_mem hold)
    · exact Or.inl (List.mem_singleton.mp hlast)

theorem mem_cells_mark (h : c ∈ (m.mark name).cells) :
    ∃ old ∈ m.cells, c.name = old.name ∧ c.value = old.value ∧
      (c.used = true ↔ old.used = true ∨ old.name = name) := by
  obtain ⟨old, hold, rfl⟩ := List.mem_map.mp h
  by_cases hname : old.name = name
  · exact ⟨old, hold, by simp [hname]⟩
  · exact ⟨old, hold, by simp [hname]⟩

theorem names_mark (m : Memory) (name : String) : (m.mark name).names = m.names := by
  rw [mark_eq_marking, names_eq_map_bindings, bindings_marking, names_eq_map_bindings]

theorem get?_eq_none_iff : m.get? name = none ↔ name ∉ m.names := by
  simp [get?, names]

theorem exists_cell_of_get? {value : Int64} (h : m.get? name = some value) :
    ∃ c ∈ m.cells, c.name = name ∧ c.value = value := by
  obtain ⟨c, hfound, hvalue⟩ := Option.map_eq_some_iff.mp h
  exact ⟨c, List.mem_of_find?_eq_some hfound, by simpa using List.find?_some hfound, hvalue⟩

end

/-! ## The summary -/

namespace Summarizes

variable {m : Memory} {log : List Operation}

theorem empty : Memory.empty.Summarizes [] where
  names := rfl
  value := by simp [Memory.empty]
  used := by simp [Memory.empty]

theorem bind (h : m.Summarizes log) (name : String) (value : Int64) :
    (m.bind name value).Summarizes (log ++ [.bind name value]) where
  names := by
    rw [names_bind, boundNames_concat, h.names]
    rfl
  value := by
    intro c hc
    rw [lastValue?_concat]
    rcases mem_cells_bind hc with rfl | ⟨hname, hold⟩
    · simp [Operation.valueFor?]
    · simp [Operation.valueFor?, Ne.symm hname, h.value c hold]
  used := by
    intro c hc
    rw [lookup_mem_sinceBound_concat]
    rcases mem_cells_bind hc with rfl | ⟨hname, hold⟩
    · simp [Operation.bound?]
    · simp [Operation.bound?, Ne.symm hname, h.used c hold]

theorem lookup (h : m.Summarizes log) (name : String) :
    (m.mark name).Summarizes (log ++ [.lookup name]) where
  names := by
    rw [names_mark, boundNames_concat, h.names]
    rfl
  value := by
    intro c hc
    obtain ⟨old, hold, hname, hvalue, _⟩ := mem_cells_mark hc
    rw [lastValue?_concat, hname, hvalue, ← h.value old hold]
    rfl
  used := by
    intro c hc
    obtain ⟨old, hold, hname, _, hused⟩ := mem_cells_mark hc
    rw [lookup_mem_sinceBound_concat, hname, hused, h.used old hold]
    simp [Operation.bound?, eq_comm]

theorem get (h : m.Summarizes log) (name : String) : m.Summarizes (log ++ [.get name]) where
  names := by
    rw [boundNames_concat, h.names]
    rfl
  value := by
    intro c hc
    rw [lastValue?_concat, ← h.value c hc]
    rfl
  used := by
    intro c hc
    rw [lookup_mem_sinceBound_concat, h.used c hc]
    simp [Operation.bound?]

/-- Every operation keeps the memory a summary of the log. -/
theorem perform (h : m.Summarizes log) (op : Operation) :
    (m.perform op).2.Summarizes (log ++ [op]) := by
  cases op with
  | bind name value => exact h.bind name value
  | lookup name => exact h.lookup name
  | get name => exact h.get name

theorem get?_eq (h : m.Summarizes log) (name : String) : m.get? name = lastValue? log name := by
  cases hvalue : m.get? name with
  | none =>
    have hunbound := get?_eq_none_iff.mp hvalue
    rw [h.names] at hunbound
    exact ((lastValue?_eq_none_iff log name).mpr hunbound).symm
  | some value =>
    obtain ⟨c, hc, rfl, rfl⟩ := exists_cell_of_get? hvalue
    exact (h.value c hc).symm

/-- An operation that asks for a name is told what the name was last bound to. -/
theorem answer_eq (h : m.Summarizes log) (op : Operation) :
    (m.perform op).1 = op.asked?.bind (lastValue? log) := by
  cases op with
  | bind name value => rfl
  | lookup name | get name => exact h.get?_eq name

theorem unused_eq (h : m.Summarizes log) :
    m.unused = (boundNames log).filter fun name => .lookup name ∉ sinceBound log name := by
  rw [← h.names, Memory.names, List.filter_map, Memory.unused]
  congr 1
  refine List.filter_congr fun c hc => ?_
  have hused := h.used c hc
  cases hflag : c.used with
  | true => simp [hused.mp hflag]
  | false =>
    rw [hflag] at hused
    simpa using hused

theorem byteSize_eq (h : m.Summarizes log) :
    m.byteSize = total ((boundNames log).map fun name => 40 + name.utf8ByteSize) := by
  rw [← h.names, Memory.names, List.map_map]
  rfl

end Summarizes

/-! ## Whole logs -/

theorem after_concat (m : Memory) (log : List Operation) (op : Operation) :
    m.after (log ++ [op]) = ((m.after log).perform op).2 := by
  simp [after]

theorem summarizes_after (log : List Operation) : (Memory.empty.after log).Summarizes log := by
  induction log using List.reverseRecOn with
  | nil => exact .empty
  | append_singleton log op ih =>
    rw [after_concat]
    exact ih.perform op

/-- Each operation is answered by the memory that the operations before it have left. -/
theorem answers_eq_mapIdx (m : Memory) (log : List Operation) :
    m.answers log = log.mapIdx fun i op => ((m.after (log.take i)).perform op).1 := by
  induction log generalizing m with
  | nil => rfl
  | cons op log ih =>
    rw [answers, ih, List.mapIdx_cons]
    rfl

/-- **A memory sums up its log.** After any operations on an empty memory there is one cell for each
name that was bound, in the order in which they were first bound. It holds the value of the last
binding and is marked as used exactly if the name has been looked up since then. Every operation on
the way that asks for a name is told the value of the last binding before it, if there is one; the
unused names are those not looked up since their last binding; and the size counts every name once,
with 40 bytes and its own. -/
theorem memory_summarizes_log (log : List Operation) :
    (Memory.empty.after log).Summarizes log ∧
    Memory.empty.answers log = log.mapIdx (fun i op => op.asked?.bind (lastValue? (log.take i))) ∧
    (Memory.empty.after log).unused =
      (boundNames log).filter (fun name => .lookup name ∉ sinceBound log name) ∧
    (Memory.empty.after log).byteSize =
      total ((boundNames log).map fun name => 40 + name.utf8ByteSize) := by
  have hsummary := summarizes_after log
  refine ⟨hsummary, ?_, hsummary.unused_eq, hsummary.byteSize_eq⟩
  rw [answers_eq_mapIdx]
  congr 1
  funext i op
  exact (summarizes_after (log.take i)).answer_eq op

/-- A name that is bound again keeps its place, and has to be looked up again. -/
example :
    let log : List Operation := [.get "x", .bind "x" 1, .lookup "x", .bind "y" 2, .bind "x" 3,
      .lookup "y", .get "x"]
    (Memory.empty.after log).cells = [⟨"x", 3, false⟩, ⟨"y", 2, true⟩] ∧
      Memory.empty.answers log = [none, none, some 1, none, none, some 2, some 3] ∧
      boundNames log = ["x", "y"] := by
  decide

end Memory

end StepCalc
