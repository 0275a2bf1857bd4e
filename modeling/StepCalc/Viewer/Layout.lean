import StepCalc.Viewer.Canvas

/-!
# Screen layout

The last row is the status bar. Above it the left column holds the program over the output, the
right one the memory over the input.
-/

namespace StepCalc.Viewer

/-- `percent` of a length, rounded to the nearest cell, a half up. -/
def share (length percent : Nat) : Nat := (length * percent + 50) / 100

/-- Two rectangles side by side, the left one with the given share. -/
def splitColumns (r : Rect) (percent : Nat) : Rect × Rect :=
  let left := share r.width percent
  (⟨r.x, r.y, left, r.height⟩, ⟨r.x + left, r.y, r.width - left, r.height⟩)

/-- Two rectangles one above the other, the upper one with the given share. -/
def splitRows (r : Rect) (percent : Nat) : Rect × Rect :=
  let upper := share r.height percent
  (⟨r.x, r.y, r.width, upper⟩, ⟨r.x, r.y + upper, r.width, r.height - upper⟩)

/-- The places of the panes. -/
structure Layout where
  program : Rect
  output : Rect
  memory : Rect
  input : Rect
  statusLeft : Rect
  statusRight : Rect
deriving DecidableEq, Repr

def Layout.ofScreen (width height : Nat) : Layout :=
  let main : Rect := ⟨0, 0, width, height - 1⟩
  let status : Rect := ⟨0, height - 1, width, min height 1⟩
  let columns := splitColumns main 60
  let left := splitRows columns.1 70
  let right := splitRows columns.2 60
  let bar := splitColumns status 50
  ⟨left.1, left.2, right.1, right.2, bar.1, bar.2⟩

end StepCalc.Viewer
