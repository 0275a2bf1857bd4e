import StepCalc.Machine.History

/-!
# The step viewer

The viewer shows a program and one snapshot of a recorded run. Keys move through the history, move
the focus from pane to pane and scroll the pane with the focus; a timer steps forward while the
viewer is playing.

Scroll offsets are 64-bit counts that stop at both ends. The largest one, `bottom`, stands for
"as far down as there is text".
-/

namespace StepCalc.Viewer

inductive Pane where
  | program | output | memory | input
deriving DecidableEq, Repr

namespace Pane

/-- The next pane, clockwise. -/
def next : Pane → Pane
  | program => output
  | output => memory
  | memory => input
  | input => program

/-- The pane before. -/
def prev : Pane → Pane
  | program => input
  | output => program
  | memory => output
  | input => memory

end Pane

/-- What a user or the timer can do. -/
inductive Event where
  | left | right | up | down
  | tab | backTab
  | enter | backspace
  | escape
  | character (c : Char)
  /-- The space bar; a press right after another one has not settled. -/
  | space (settled : Bool)
  /-- The timer of the playing viewer. -/
  | tick
deriving DecidableEq, Repr

end Viewer

/-- The state of the viewer. -/
structure Viewer where
  history : History
  listing : List ListingLine
  focus : Viewer.Pane
  programOffset : Nat
  /-- The row at which the current line is kept; none before the first drawing. -/
  targetRow : Option Nat
  memoryOffset : Nat
  /-- The number of rows of the memory pane at the last drawing. -/
  memoryCount : Nat
  inputOffset : Nat
  outputOffset : Nat
  message : String
  playing : Bool
  quit : Bool

namespace Viewer

/-! ## Offsets -/

/-- The largest offset. -/
def bottom : Nat := maxCount

/-- One row further down. -/
def lower (offset : Nat) : Nat := min (offset + 1) bottom

def higher (offset : Nat) : Nat := offset - 1

/-! ## Events -/

/-- The viewer of a recorded run, before the first drawing. -/
def replay (program : Program) (history : History) : Viewer where
  history := history
  listing := program.listing
  focus := .program
  programOffset := 0
  targetRow := none
  memoryOffset := 0
  memoryCount := 0
  inputOffset := 0
  outputOffset := 0
  message :=
    if history.truncated then s!"History truncated after {history.length} steps" else "Ready!"
  playing := false
  quit := false

variable (v : Viewer)

/-- The viewer at another place of the history, with the end of the output in view. -/
def moveTo (history : History) (message : String) : Viewer :=
  { v with history, message, outputOffset := bottom }

def stepForward : Viewer :=
  match v.history.forward? with
  | some history => v.moveTo history "Stepped forward"
  | none =>
    { v with
      message :=
        if v.history.truncated then "Cannot step forward: history was truncated here"
        else "Cannot step forward: execution finished" }

def stepBackward : Viewer :=
  match v.history.backward? with
  | some history => v.moveTo history "Stepped backward"
  | none => { v with message := "Cannot step backward: at the beginning" }

/-- Up to `count` snapshots forward, and how many there were. -/
def forwardBy : Nat → History → History × Nat
  | 0, history => (history, 0)
  | count + 1, history =>
    match history.forward? with
    | some next =>
      let (last, stepped) := forwardBy count next
      (last, stepped + 1)
    | none => (history, 0)

/-- Up to `count` snapshots forward. -/
def jumpForward (count : Nat) : Viewer :=
  let (history, stepped) := forwardBy count v.history
  v.moveTo history s!"Stepped forward {stepped} step(s)"

def stopped : Viewer := { v with playing := false }

def togglePlaying : Viewer :=
  { v with
    playing := !v.playing
    message := if v.playing then "Paused" else "Playing..." }

/-- One snapshot forward if the viewer is playing; at the end it stops. -/
def tick : Viewer :=
  if v.playing then
    match v.history.forward? with
    | some history => v.moveTo history "Playing..."
    | none => { v with playing := false, message := "Playback complete" }
  else v

/-- Scrolls the pane with the focus up. In the program pane the current line moves down. -/
def scrollUp : Viewer :=
  match v.focus with
  | .program => { v with targetRow := v.targetRow.map lower }
  | .memory => { v with memoryOffset := higher v.memoryOffset }
  | .input => { v with inputOffset := higher v.inputOffset }
  | .output => { v with outputOffset := higher v.outputOffset }

/-- Scrolls the pane with the focus down. In the program pane the current line moves up. -/
def scrollDown : Viewer :=
  match v.focus with
  | .program => { v with targetRow := v.targetRow.map higher }
  | .memory => { v with memoryOffset := lower v.memoryOffset }
  | .input => { v with inputOffset := lower v.inputOffset }
  | .output => { v with outputOffset := lower v.outputOffset }

/-- A character key: `q` ends the viewer and a digit steps forward that often. -/
def handleCharacter (c : Char) : Viewer :=
  if c = 'q' ∨ c = 'Q' then { v with quit := true }
  else if '1' ≤ c ∧ c ≤ '9' then v.stopped.jumpForward (c.toNat - '0'.toNat)
  else v

def handle : Event → Viewer
  | .escape => { v with quit := true }
  | .character c => v.handleCharacter c
  | .tab => { v with focus := v.focus.next }
  | .backTab => { v with focus := v.focus.prev }
  | .left => v.stopped.stepBackward
  | .right => v.stopped.stepForward
  | .up => v.scrollUp
  | .down => v.scrollDown
  | .space settled => if settled then v.togglePlaying else v
  | .enter => v.stopped.moveTo v.history.toEnd "Jumped to end"
  | .backspace => v.stopped.moveTo v.history.rewind "Jumped to start"
  | .tick => v.tick

/-! ## What is shown -/

/-- The state at the position; without snapshots it is empty. -/
def shownState : State := (v.history.current?.map Snapshot.state).getD ⟨∅, [], []⟩

def shownStatus : Status := (v.history.current?.map Snapshot.status).getD .ongoing

/-- The listing line of the statement that led to the position. -/
def currentLine? : Option Nat :=
  (v.history.current?.bind Snapshot.statement).bind fun id =>
    v.listing.findIdx? fun line => line.statement == some id

end Viewer

end StepCalc
