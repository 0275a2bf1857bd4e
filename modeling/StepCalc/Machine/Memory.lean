import StepCalc.Text.Counting

/-!
# Memory

The variables of a running program, one cell per name in the order in which the names were first
bound. A cell is used if it was read since its last binding.
-/

namespace StepCalc

/-- A variable. -/
structure Cell where
  name : String
  value : Int64
  used : Bool
deriving DecidableEq

/-- The variables, in order of first binding. -/
@[ext] structure Memory where
  cells : List Cell
  distinct : (cells.map Cell.name).Nodup
deriving DecidableEq

namespace Memory

def empty : Memory := ⟨[], List.nodup_nil⟩

instance : EmptyCollection Memory := ⟨empty⟩

variable (m : Memory)

/-- The memory with its cells changed, except for their names. -/
def mapCells (f : Cell → Cell) (hf : ∀ c, (f c).name = c.name) : Memory where
  cells := m.cells.map f
  distinct := by
    have hnames : (m.cells.map f).map Cell.name = m.cells.map Cell.name := by
      simp [Function.comp_def, hf]
    rw [hnames]
    exact m.distinct

/-- Gives `name` a value. A name that has one keeps its place; the cell counts as unused. -/
def bind (name : String) (value : Int64) : Memory :=
  if h : m.cells.any (fun c => c.name == name) = true then
    m.mapCells (fun c => if c.name = name then ⟨name, value, false⟩ else c) (by grind)
  else
    { cells := m.cells ++ [⟨name, value, false⟩]
      distinct := by
        rw [List.map_append, List.nodup_append]
        refine ⟨m.distinct, by simp, fun old hold new hnew heq => h ?_⟩
        obtain ⟨c, hc, rfl⟩ := List.mem_map.mp hold
        rw [List.map_singleton, List.mem_singleton] at hnew
        exact List.any_eq_true.mpr ⟨c, hc, beq_iff_eq.mpr (heq.trans hnew)⟩ }

def get? (name : String) : Option Int64 :=
  (m.cells.find? fun c => c.name == name).map Cell.value

/-- The memory with `name` marked as used. -/
def mark (name : String) : Memory :=
  m.mapCells (fun c => if c.name = name then { c with used := true } else c) (by grind)

/-- The value of `name`, and the memory with `name` marked as used. -/
def lookup (name : String) : Option Int64 × Memory := (m.get? name, m.mark name)

/-- The names not read since their last binding. -/
def unused : List String := (m.cells.filter fun c => !c.used).map Cell.name

/-- The size of one cell, without its name. -/
def cellBytes : Nat := 40

/-- The number of bytes that the cells take up, names included. -/
def byteSize : Nat := total (m.cells.map fun c => cellBytes + c.name.utf8ByteSize)

end Memory

end StepCalc
