import StepCalc.Viewer.Basic

/-!
# Scrolling

Before a pane is drawn its offset is settled for its height: no further down than the text reaches,
with the current line of the program at its row, and with a new variable in view. Settling twice
changes nothing more.
-/

namespace StepCalc.Viewer

structure PaneHeights where
  program : Nat
  output : Nat
  memory : Nat
  input : Nat
deriving DecidableEq, Repr

/-- The rows inside a border; at least one is always counted. -/
def visibleRows (height : Nat) : Nat := max (height - 2) 1

/-- The offset, but no further down than `total` rows need. -/
def clamp (total visible offset : Nat) : Nat :=
  if visible < total then min offset (total - visible) else 0

/-- The row at which the current line is kept; the middle one at first. -/
def settleTarget (visible : Nat) (target : Option Nat) : Nat :=
  min (target.getD (visible / 2)) (visible - 1)

/-- The number of rows of the memory pane; without variables it has one that says so. -/
def memoryRows (m : Memory) : Nat := if m.cells.isEmpty then 1 else m.cells.length

/-- The offset of a list of words; without words it is left alone. -/
def settleWords (words : List String) (height offset : Nat) : Nat :=
  if words.isEmpty then offset else clamp words.length (visibleRows height) offset

/-- The offset of the memory pane, which had `before` rows when it was last drawn. -/
def settleMemory (rows before height offset : Nat) : Nat :=
  let visible := visibleRows height
  clamp rows visible (if before < rows ∧ visible < rows then rows - visible else offset)

/-- The viewer with its offsets settled for the given heights. -/
def settle (v : Viewer) (heights : PaneHeights) : Viewer :=
  let visible := visibleRows heights.program
  let target := settleTarget visible v.targetRow
  let pinned := match v.currentLine? with
    | some line => line - target
    | none => v.programOffset
  let state := v.shownState
  let rows := memoryRows state.memory
  { v with
    targetRow := some target
    programOffset := clamp v.listing.length visible pinned
    memoryOffset := settleMemory rows v.memoryCount heights.memory v.memoryOffset
    memoryCount := rows
    inputOffset := settleWords state.input heights.input v.inputOffset
    outputOffset := settleWords state.output heights.output v.outputOffset }

end StepCalc.Viewer
