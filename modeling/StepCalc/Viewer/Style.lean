/-!
# Colours and styles

A style says which colours and modifiers it sets; laid over another style it leaves alone what it
does not set. The palette of the viewer stands at the end.
-/

namespace StepCalc.Viewer

inductive Color where
  | rgb (red green blue : UInt8)
  | black
  | white
deriving DecidableEq, Repr

/-- What a style sets. -/
structure Style where
  fg : Option Color := none
  bg : Option Color := none
  bold : Bool := false
  italic : Bool := false
deriving DecidableEq, Repr

namespace Style

def plain : Style := {}

def ink (color : Color) : Style := { fg := some color }

def paper (color : Color) : Style := { bg := some color }

/-- The style `upper` laid over `lower`. -/
def onto (upper lower : Style) : Style where
  fg := upper.fg.or lower.fg
  bg := upper.bg.or lower.bg
  bold := upper.bold || lower.bold
  italic := upper.italic || lower.italic

end Style

namespace Palette

def text : Color := .rgb 205 214 244
def primary : Color := .rgb 137 180 250
def secondary : Color := .rgb 250 179 135
def comment : Color := .rgb 108 112 134
def success : Color := .rgb 166 227 161
def error : Color := .rgb 243 139 168
def keyword : Color := primary
def number : Color := secondary
def identifier : Color := .rgb 148 226 213

/-- The border of the pane with the focus. -/
def focusedBorder : Color := .rgb 249 226 175
def border : Color := comment

/-- The background of the current line and of the status bar. -/
def currentLine : Color := .rgb 50 50 70

end Palette

end StepCalc.Viewer
