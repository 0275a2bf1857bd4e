import StepCalc.Text.Column

/-!
# Parse trees

The tree of a parse: leaves for tokens and one node per expanded nonterminal. `ParseTree.failed`
stands for a source that has no tree.
-/

namespace StepCalc

/-- A concrete parse tree. -/
inductive ParseTree where
  /-- The tree of a source that could not be parsed. -/
  | failed
  | identifier (name : String)
  | number (text : String)
  /-- A keyword, a mark or the end marker. -/
  | literal (text : String)
  | node (name : String) (children : List ParseTree)

namespace ParseTree

def isFailed : ParseTree → Bool
  | failed => true
  | _ => false

/-- The nonterminal of a node or the text of a leaf. -/
def label : ParseTree → String
  | failed => "<error>"
  | identifier text | number text | literal text => text
  | node name _ => name

/-- One level of the tree: a node's label with the labels of its children. -/
def shape : ParseTree → String
  | node name children => name ++ "(" ++ separated " " (children.map label) ++ ")"
  | identifier name => s!"id {name}"
  | number text => s!"num {text}"
  | literal text => text
  | failed => "<error>"

mutual

/-- The lines of a tree, `depth` levels deep. -/
def lines (depth : Nat) : ParseTree → List String
  | node name children => (repeated depth "  " ++ name) :: linesOfAll (depth + 1) children
  | identifier name => [repeated depth "  " ++ s!"id \"{name}\""]
  | number text => [repeated depth "  " ++ s!"num \"{text}\""]
  | literal text => [repeated depth "  " ++ s!"\"{text}\""]
  | failed => [repeated depth "  " ++ "<error>"]

/-- The lines of some trees, one tree after the other. -/
def linesOfAll (depth : Nat) : List ParseTree → List String
  | [] => []
  | tree :: rest => tree.lines depth ++ linesOfAll depth rest

end

/-- The tree as text, one line per node or leaf. -/
def render (tree : ParseTree) : String := joinLines (tree.lines 0)

end ParseTree

end StepCalc
