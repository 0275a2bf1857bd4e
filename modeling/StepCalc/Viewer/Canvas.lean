import StepCalc.Text.Counting
import StepCalc.Viewer.Style

/-!
# Drawing

A canvas is a grid of styled characters. Everything is drawn inside a rectangle and cut at its
right and lower edge; a style is laid over what a cell already has.
-/

namespace StepCalc.Viewer

/-- One cell of the screen. -/
structure Glyph where
  char : Char
  style : Style
deriving DecidableEq, Repr

/-- A grid of cells, row by row. -/
structure Canvas where
  width : Nat
  height : Nat
  cells : Array Glyph

structure Rect where
  x : Nat
  y : Nat
  width : Nat
  height : Nat
deriving DecidableEq, Repr

structure Span where
  text : String
  style : Style
deriving DecidableEq, Repr

namespace Rect

/-- The rectangle inside a border. -/
def inner (r : Rect) : Rect := ⟨r.x + 1, r.y + 1, r.width - 2, r.height - 2⟩

/-- The rectangle without its first column. -/
def indented (r : Rect) : Rect := ⟨r.x + 1, r.y, r.width - 1, r.height⟩

def isEmpty (r : Rect) : Bool := r.width == 0 || r.height == 0

/-- The places of all cells, row by row. -/
def places (r : Rect) : List (Nat × Nat) :=
  (List.range r.height).flatMap fun dy => (List.range r.width).map fun dx => (r.x + dx, r.y + dy)

end Rect

namespace Canvas

def blank (width height : Nat) : Canvas :=
  ⟨width, height, Array.replicate (width * height) ⟨' ', .plain⟩⟩

def rows (c : Canvas) : List (List Glyph) :=
  (List.range c.height).map fun y =>
    (c.cells.extract (y * c.width) ((y + 1) * c.width)).toList

/-- Changes the cell at a place; outside the canvas there is none. -/
def modify (c : Canvas) (x y : Nat) (f : Glyph → Glyph) : Canvas :=
  if x < c.width ∧ y < c.height then { c with cells := c.cells.modify (y * c.width + x) f } else c

def put (style : Style) (char : Char) (c : Canvas) (x y : Nat) : Canvas :=
  c.modify x y fun glyph => ⟨char, style.onto glyph.style⟩

/-- Lays a style over all cells of a rectangle. -/
def tint (c : Canvas) (r : Rect) (style : Style) : Canvas :=
  r.places.foldl (fun c (x, y) => c.modify x y fun glyph => { glyph with style := style.onto glyph.style }) c

/-- Writes spans from a place on, cut after `width` characters. -/
def write (c : Canvas) (x y width : Nat) (spans : List Span) : Canvas :=
  let glyphs := spans.flatMap fun span => span.text.toList.map fun char => Glyph.mk char span.style
  ((glyphs.take width).zipIdx).foldl (fun c (glyph, i) => c.put glyph.style glyph.char (x + i) y) c

def spansWidth (spans : List Span) : Nat := total (spans.map fun span => span.text.length)

/-- Draws a border with a title. The sides come first, then the edges, then the corners, so that
in a narrow rectangle the upper left corner is the one that shows. -/
def frame (c : Canvas) (r : Rect) (style : Style) (title : String) : Canvas :=
  if r.isEmpty then c
  else
    let right := r.x + r.width - 1
    let bottom := r.y + r.height - 1
    let sides := (List.range r.height).flatMap fun dy =>
      [('│', r.x, r.y + dy), ('│', right, r.y + dy)]
    let edges := (List.range r.width).flatMap fun dx =>
      [('─', r.x + dx, r.y), ('─', r.x + dx, bottom)]
    let corners := [('┘', right, bottom), ('┐', right, r.y), ('└', r.x, bottom), ('┌', r.x, r.y)]
    let c := (sides ++ edges ++ corners).foldl (fun c (char, x, y) => c.put style char x y) c
    c.write (r.x + 1) r.y (r.width - 2) [⟨title, .plain⟩]

/-- Writes lines from the top of a rectangle down. -/
def lines (c : Canvas) (r : Rect) (lines : List (List Span)) : Canvas :=
  ((lines.take r.height).zipIdx).foldl (fun c (spans, i) => c.write r.x (r.y + i) r.width spans) c

/-- Writes one line, at the right edge if it fits and cut on the right otherwise. -/
def lineAtRight (c : Canvas) (r : Rect) (spans : List Span) : Canvas :=
  if r.height = 0 then c
  else
    let indent := r.width - spansWidth spans
    c.write (r.x + indent) r.y (r.width - indent) spans

/-- Writes one item per row from the top of a rectangle down; the style of an item fills its row. -/
def items (c : Canvas) (r : Rect) (items : List (Style × List Span)) : Canvas :=
  ((items.take r.height).zipIdx).foldl
    (fun c ((style, spans), i) =>
      (c.tint ⟨r.x, r.y + i, r.width, 1⟩ style).write r.x (r.y + i) r.width spans) c

end Canvas

end StepCalc.Viewer
