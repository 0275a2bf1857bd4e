import StepCalc.Viewer.Paint

/-!
# Keys as characters

A terminal sends most keys as one character and the arrow keys as an escape followed by a bracket
and a letter.
-/

namespace StepCalc.Viewer

/-- The events that characters from a terminal stand for. -/
def Event.ofChars : List Char → List Event
  | [] => []
  | '\x1b' :: '[' :: 'A' :: rest => .up :: ofChars rest
  | '\x1b' :: '[' :: 'B' :: rest => .down :: ofChars rest
  | '\x1b' :: '[' :: 'C' :: rest => .right :: ofChars rest
  | '\x1b' :: '[' :: 'D' :: rest => .left :: ofChars rest
  | '\x1b' :: '[' :: 'Z' :: rest => .backTab :: ofChars rest
  | '\x1b' :: rest => .escape :: ofChars rest
  | '\t' :: rest => .tab :: ofChars rest
  | '\r' :: rest => .enter :: ofChars rest
  | '\x08' :: rest => .backspace :: ofChars rest
  | '\x7f' :: rest => .backspace :: ofChars rest
  | ' ' :: rest => .space true :: ofChars rest
  | c :: rest => .character c :: ofChars rest

/-- The viewer after some events on a screen; events after a quitting one do not count. -/
def handleAll (width height : Nat) : Viewer → List Event → Viewer
  | v, [] => v
  | v, event :: rest =>
    if v.quit then v else handleAll width height ((v.handle event).settleFor width height) rest

end StepCalc.Viewer
