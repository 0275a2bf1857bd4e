import StepCalc.Text.Column
import StepCalc.Viewer.Layout
import StepCalc.Viewer.Scroll

/-!
# What the viewer draws

The four panes and the status bar, drawn from the settled offsets.
-/

namespace StepCalc.Viewer

def borderStyle (focused : Bool) : Style :=
  if focused then { fg := some Palette.focusedBorder, bold := true }
  else .ink Palette.border

/-- The items of a scrolled list that are in view. -/
def window {α : Type} (items : List α) (offset visible : Nat) : List α :=
  (items.drop offset).take visible

/-! ## The program -/

def highlighted : List String := ["read", "write", "if", "fi", "do", "od", "check"]

def wordStyle (word : String) : Style :=
  if highlighted.contains word then { fg := some Palette.keyword, bold := true }
  else if (word.toList.head?.map Char.isDigit).getD false then .ink Palette.number
  else .ink Palette.identifier

/-- The text cut into words and single other characters, with `word` the word so far, reversed. -/
def highlightFrom (word : List Char) : List Char → List Span
  | [] => flush word
  | c :: rest =>
    if c.isAlphanum || c == '_' then highlightFrom (c :: word) rest
    else flush word ++ ⟨String.singleton c, .ink Palette.text⟩ :: highlightFrom [] rest
where
  /-- The span of a word, if there is one. -/
  flush (word : List Char) : List Span :=
    if word.isEmpty then []
    else
      let text := String.ofList word.reverse
      [⟨text, wordStyle text⟩]

def highlight (text : String) : List Span := highlightFrom [] text.toList

/-- The id column of a listing line: four places, at the right. -/
def idColumn (id : Option Nat) : String :=
  match id with
  | some id =>
    let digits := toString id
    repeated (4 - digits.length) " " ++ digits ++ " "
  | none => "     "

/-- A listing line; the current one stands out, and in red after an error. -/
def listingSpans (line : ListingLine) (current failed : Bool) : List Span :=
  let text := highlight line.text
  let indent : Span := ⟨repeated line.depth "   ", .plain⟩
  let id := idColumn line.statement
  if current && failed then
    let style : Style := { fg := some .white, bg := some Palette.error, bold := true }
    ⟨id, { fg := some Palette.error, bold := true }⟩ :: indent
      :: text.map fun span => ⟨span.text, style⟩
  else if current then
    ⟨id, { fg := some Palette.secondary, bold := true }⟩ :: indent
      :: text.map fun span => ⟨span.text, (Style.paper Palette.currentLine).onto span.style⟩
  else ⟨id, .ink Palette.comment⟩ :: indent :: text

def paintProgram (v : Viewer) (r : Rect) (c : Canvas) : Canvas :=
  let border := borderStyle (v.focus = .program)
  let failed := v.shownStatus = .failed
  let current := v.currentLine?
  if v.listing.isEmpty then
    let c := (c.tint r (.ink Palette.comment)).frame r border " Program "
    c.lines r.inner [[⟨"(empty program)", .plain⟩]]
  else
    let shown := window v.listing.zipIdx v.programOffset (visibleRows r.height)
    (c.frame r border " Program ").lines r.inner
      (shown.map fun (line, i) => listingSpans line (current = some i) failed)

/-! ## Words -/

/-- A pane of words. -/
structure WordPane where
  title : String
  placeholder : String
  words : List String
  /-- Whether the last word is an error message. -/
  lastIsError : Bool

/-- Draws a pane of words, one per row. -/
def paintWords (pane : WordPane) (focused : Bool) (offset : Nat) (r : Rect) (c : Canvas) :
    Canvas :=
  let border := borderStyle focused
  if pane.words.isEmpty then
    let c := (c.tint r (.ink Palette.comment)).frame r border pane.title
    c.lines r.inner [[⟨pane.placeholder, .plain⟩]]
  else
    let items := pane.words.zipIdx.map fun (word, i) =>
      let color :=
        if pane.lastIsError && i + 1 == pane.words.length then Palette.error else Palette.text
      (Style.ink color, [Span.mk word .plain])
    (c.frame r border pane.title).items r.inner.indented
      (window items offset (visibleRows r.height))

/-! ## Memory -/

def cellSpans (nameWidth : Nat) (cell : Cell) : List Span :=
  [⟨"▸ ", .ink Palette.secondary⟩,
   ⟨padRight nameWidth cell.name, { fg := some Palette.identifier, bold := true }⟩,
   ⟨" = ", .ink Palette.comment⟩,
   ⟨showInt64 cell.value, .ink Palette.number⟩,
   if cell.used then ⟨"  ", .plain⟩
   else ⟨"  unused", { fg := some Palette.comment, italic := true }⟩]

/-- Draws the memory pane. Names are padded to the longest one, counted in bytes. -/
def paintMemory (m : Memory) (focused : Bool) (offset : Nat) (r : Rect) (c : Canvas) : Canvas :=
  let nameWidth := (m.cells.map fun cell => cell.name.utf8ByteSize).foldl max 0
  let items :=
    if m.cells.isEmpty then [(Style.ink Palette.comment, [Span.mk "(empty)" .plain])]
    else m.cells.map fun cell => (.plain, cellSpans nameWidth cell)
  (c.frame r (borderStyle focused) " Memory ").items r.inner
    (window items offset (visibleRows r.height))

/-! ## The status bar -/

/-- The left half of the status bar: the position and the message. -/
def statusSpans (v : Viewer) : List Span :=
  let failed := v.shownStatus = .failed
  let total := toString v.history.length ++ if v.history.truncated then "+" else ""
  [⟨s!" Step {v.history.position + 1}/{total} ",
    { bg := some (if failed then Palette.error else Palette.primary), fg := some .black,
      bold := true }⟩,
   ⟨" | ", { bg := some Palette.currentLine, fg := some Palette.comment }⟩,
   ⟨s!" {v.message} ",
    { bg := some Palette.currentLine, fg := some (if failed then Palette.error else Palette.text) }⟩]

/-- The badge at the right end of the status bar. -/
def badge? (v : Viewer) : Option (String × Color) :=
  if v.playing then some (" ▶ PLAYING ", Palette.secondary)
  else if v.shownStatus = .failed then some (" ERROR ", Palette.error)
  else if v.history.isAtEnd then some (" END ", Palette.error)
  else if v.history.position = 0 then some (" START ", Palette.success)
  else none

/-- The right half of the status bar: the keys and the badge. -/
def keySpans (v : Viewer) : List Span :=
  let key : Style := { bg := some Palette.comment, fg := some .black }
  let description : Style := { bg := some Palette.currentLine, fg := some Palette.text }
  let separator : Span := ⟨"│", { bg := some Palette.currentLine, fg := some Palette.comment }⟩
  let keys : List Span :=
    [⟨" ←/→ ", key⟩, ⟨" step ", description⟩, separator, ⟨" ", description⟩,
     ⟨" ⎵ ", key⟩, ⟨" play ", description⟩, separator, ⟨" ", description⟩,
     ⟨" ↵ / ⌫ ", key⟩, ⟨" end/start ", description⟩, separator, ⟨" ", description⟩,
     ⟨"q", key⟩, ⟨" quit ", description⟩]
  match v.badge? with
  | some (text, color) =>
    keys ++ [separator, ⟨text, { bg := some color, fg := some .black, bold := true }⟩]
  | none => keys

def paintStatus (v : Viewer) (left right : Rect) (c : Canvas) : Canvas :=
  let c := (c.tint left (.paper Palette.currentLine)).lines left [v.statusSpans]
  (c.tint right (.paper Palette.currentLine)).lineAtRight right v.keySpans

/-! ## The screen -/

def Layout.heights (layout : Layout) : PaneHeights :=
  ⟨layout.program.height, layout.output.height, layout.memory.height, layout.input.height⟩

/-- The viewer settled for a screen. -/
def settleFor (v : Viewer) (width height : Nat) : Viewer :=
  v.settle (Layout.ofScreen width height).heights

/-- The screen of a settled viewer. -/
def paint (v : Viewer) (width height : Nat) : Canvas :=
  let layout := Layout.ofScreen width height
  let state := v.shownState
  let output : WordPane := ⟨" Output ", "(no output)", state.output, v.shownStatus = .failed⟩
  let input : WordPane := ⟨" Input ", "(input exhausted)", state.input, false⟩
  Canvas.blank width height
    |> v.paintProgram layout.program
    |> paintWords output (v.focus = .output) v.outputOffset layout.output
    |> paintMemory state.memory (v.focus = .memory) v.memoryOffset layout.memory
    |> paintWords input (v.focus = .input) v.inputOffset layout.input
    |> v.paintStatus layout.statusLeft layout.statusRight

end StepCalc.Viewer
