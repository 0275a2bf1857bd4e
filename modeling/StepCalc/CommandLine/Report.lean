import StepCalc.Grammar.Prediction
import StepCalc.Program.OfTree
import StepCalc.Text.Document

/-!
# Reports

Trees, programs, analyses and tables as documents, and an analysis as text.
-/

namespace StepCalc

open Document

/-! ## Trees and programs -/

mutual

def ParseTree.document : ParseTree → Document
  | .failed => text "Error"
  | .identifier name => record [("Id", text name)]
  | .number digits => record [("Num", text digits)]
  | .literal word => record [("Term", text word)]
  | .node name children => record [("Node", list [text name, list (documents children)])]

def ParseTree.documents : List ParseTree → List Document
  | [] => []
  | tree :: rest => tree.document :: ParseTree.documents rest

end

/-- The name of an operator. -/
def BinOp.title : BinOp → String
  | .add => "Add"
  | .sub => "Sub"
  | .mul => "Mul"
  | .div => "Div"
  | .eq => "Eq"
  | .ne => "Ne"
  | .lt => "Lt"
  | .gt => "Gt"
  | .le => "Le"
  | .ge => "Ge"

def Expr.document : Expr → Document
  | .binary op lhs rhs =>
    record [("Binary", record [
      ("op", text op.title), ("lhs", lhs.document), ("rhs", rhs.document)])]
  | .ident name => record [("Ident", text name)]
  | .number digits => record [("Number", text digits)]

mutual

def Statement.document : Statement → Document
  | .assign name e => record [("Assign", record [("name", text name), ("expr", e.document)])]
  | .read name => record [("Read", text name)]
  | .write e => record [("Write", e.document)]
  | .branch e body =>
    record [("If", record [
      ("condition", e.document), ("body", list (documents body))])]
  | .loop body => record [("Loop", list (documents body))]
  | .check e => record [("Check", e.document)]
  | .erroneous => text "Error"

def Statement.documents : List Statement → List Document
  | [] => []
  | s :: rest => s.document :: Statement.documents rest

end

def Program.document (p : Program) : Document :=
  record [("statements", list (Statement.documents p.statements))]

/-! ## Analyses and tables -/

def namesDocument (names : List String) : Document := list (names.map text)

def Traits.document (t : Traits) : Document :=
  record [
    ("first", namesDocument t.first.toList), ("follow", namesDocument t.follow.toList),
    ("nullable", truth t.nullable)]

/-- An analysis as a document, with the number of passes that it took. -/
def Analysis.document (a : Analysis) (passes : Nat) : Document :=
  record [
    ("entries", list (a.entries.map fun (name, traits) => list [text name, traits.document])),
    ("passes", number passes)]

def Prediction.document (p : Prediction) : Document :=
  record [("predict", namesDocument p.predict.toList), ("rhs", namesDocument p.rhs)]

/-- A table as a document; its rows are sorted by name. -/
def PredictionTable.document (table : PredictionTable) : Document :=
  let names := table.rows.map Prod.fst
  record [
    ("order", namesDocument names),
    ("rows", record ((TerminalSet.ofList names).toList.map fun name =>
      (name, list (((table.row? name).getD []).map Prediction.document)))),
    ("start", text table.start)]

/-- An analysis as text, one line per nonterminal. Names are padded to the longest one, counted in
bytes. -/
def Analysis.report (a : Analysis) (passes : Nat) : String :=
  let width := (a.entries.map fun entry => entry.1.utf8ByteSize).foldl max 0
  let braced (set : TerminalSet) : String := "\x7b" ++ separated " " set.toList ++ "\x7d"
  joinLines (s!"fixed point after {passes} passes" :: a.entries.map fun (name, traits) =>
    padRight width name ++ "  nullable=" ++ padRight 5 (if traits.nullable then "true" else "false")
      ++ "  first=" ++ braced traits.first ++ "  follow=" ++ braced traits.follow)

end StepCalc
