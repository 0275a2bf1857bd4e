import StepCalc.Parsing.Automaton
import StepCalc.Program.OfTree
import StepCalc.Token.Scanner

/-!
# From source text to programs

Scanning, parsing and reading the tree, one after the other.
-/

namespace StepCalc

/-- Why a source is no program. -/
inductive CompileError where
  | parsing (error : SyntaxError)
  | shape (error : ShapeError)

def CompileError.message : CompileError → String
  | .parsing error => error.message
  | .shape error => error.message

def parseSource (v : Vocabulary) (table : PredictionTable) (source : String) :
    Except SyntaxError ParseTree :=
  Parsing.parseTokens table (v.scan source)

namespace Program

/-- The program of a tree, with its error as a compile error. -/
def ofParse (tree : ParseTree) : Except CompileError Program :=
  match ofTree tree with
  | .ok program => .ok program
  | .error error => .error (.shape error)

/-- The program of a source, scanned with a vocabulary and parsed with a table. -/
def compileWith (v : Vocabulary) (table : PredictionTable) (source : String) :
    Except CompileError Program :=
  match parseSource v table source with
  | .error error => .error (.parsing error)
  | .ok tree => ofParse tree

/-- The program of a source with the words and marks of the calculator language. -/
def compile (table : PredictionTable) (source : String) : Except CompileError Program :=
  compileWith .calculator table source

end Program

end StepCalc
