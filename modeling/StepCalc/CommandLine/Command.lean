import StepCalc.CommandLine.Arguments
import StepCalc.CommandLine.Report
import StepCalc.Grammar.Calculator
import StepCalc.Grammar.Reader
import StepCalc.Machine.Run
import StepCalc.Program.Source
import StepCalc.Viewer.Basic

/-!
# Carrying out commands

`respond` says what a command prints and how it ends, given the contents of the files that can be
read. The step viewer that a command opens is part of the response.
-/

namespace StepCalc.CommandLine

/-- What a command prints, and its exit code. -/
structure Response where
  exitCode : Nat
  stdout : String
  stderr : String
  /-- The step viewer to open, if any. -/
  viewer : Option Viewer

/-- The readable files. -/
abbrev Files := String → Option String

namespace Response

def ok (stdout : String) (stderr : String) : Response := ⟨0, stdout, stderr, none⟩

/-- A response that fails with a message, after the diagnostics printed so far. -/
def error (stderr message : String) : Response :=
  ⟨1, "", stderr ++ "Error: " ++ message ++ "\n", none⟩

end Response

def versionLine : String := "llcalc 0.1.0\n"

def helpText : String :=
  joinLines [
    "Usage: llcalc [OPTIONS] <COMMAND>",
    "",
    "Commands:",
    "  run    Run a program and print its output",
    "  parse  Print the concrete parse tree of a program",
    "  ast    Print the lowered program",
    "  table  Print nullable/FIRST/FOLLOW and the prediction table of the grammar",
    "  tui    Run a program, then step through its history in a terminal UI"]

/-! ## Reading -/

/-- The grammar with a name, or in a file. -/
def loadGrammar (files : Files) (name : String) : Except String Grammar :=
  match Grammar.builtin? name with
  | some g => .ok g
  | none =>
    match files name with
    | none => .error s!"'{name}' is neither a built-in grammar nor a readable file"
    | some text =>
      match Grammar.ofText text with
      | .ok g => .ok g
      | .error _ => .error s!"loading grammar {name}"

def fileText (files : Files) (path : String) : Except String String :=
  match files path with
  | some text => .ok text
  | none => .error s!"reading {path}"

def readInput (files : Files) (arguments : RunArguments) : Except String String :=
  match arguments.input, arguments.inputFile with
  | some words, _ => .ok words
  | none, some path => fileText files path
  | none, none => .ok ""

/-- The program of a source and a diagnostic. A syntax error is a diagnostic; the program is then
the one that reports it when run. -/
def compileSource (table : PredictionTable) (source : String) :
    Except String (Program × String) :=
  match Program.compile table source with
  | .ok program => .ok (program, "")
  | .error (.parsing error) => .ok (⟨[.erroneous]⟩, error.message ++ "\n")
  | .error (.shape error) => .error error.message

/-! ## Commands -/

/-- Runs a program and prints its output. -/
def run (files : Files) (table : PredictionTable) (arguments : RunArguments) :
    Except String Response := do
  let source ← fileText files arguments.file
  let input ← readInput files arguments
  let (program, diagnostic) ← compileSource table source
  match program.run? input { steps := arguments.maxSteps } with
  | some r => return .ok r.render diagnostic
  | none => throw "the program does not end"

def parse (files : Files) (table : PredictionTable) (file : String) (json : Bool) :
    Except String Response := do
  let source ← fileText files file
  match parseSource .calculator table source with
  | .error error => return ⟨1, "", error.message ++ "\n", none⟩
  | .ok tree => return .ok (if json then tree.document.pretty ++ "\n" else tree.render) ""

def ast (files : Files) (table : PredictionTable) (file : String) (json : Bool) :
    Except String Response := do
  let source ← fileText files file
  let (program, diagnostic) ← compileSource table source
  return .ok (if json then program.document.pretty ++ "\n" else program.render) diagnostic

def printTable (g : Grammar) (table : PredictionTable) (json : Bool) : Response :=
  let analysis := g.analysis
  if json then
    let document := Document.record [
      ("knowledge", analysis.document g.passCount), ("table", table.document)]
    .ok (document.pretty ++ "\n") ""
  else
    let conflicts := joinLines (table.conflicts.map fun c => "conflict: " ++ c.message)
    .ok (analysis.report g.passCount ++ "\n" ++ table.render ++ conflicts) ""

/-- A history limit in bytes, counted in 64 bits. -/
def bytesOfMebibytes (limit : Nat) : Nat := limit * 1024 * 1024 % (maxCount + 1)

/-- Runs a program with a history and opens the step viewer. -/
def tui (files : Files) (table : PredictionTable) (arguments : RunArguments) (limit : Nat) :
    Except String Response := do
  let source ← fileText files arguments.file
  let input ← readInput files arguments
  let announced := s!"Parsing {arguments.file}...\n"
  match compileSource table source with
  | .error message => return .error announced message
  | .ok (program, diagnostic) =>
    let limits : RunLimits :=
      { history := some (bytesOfMebibytes limit), steps := arguments.maxSteps }
    match program.run? input limits with
    | some { history := some history, .. } =>
      let log := announced ++ diagnostic
        ++ s!"Parsed successfully. Found {program.statementCount} statements.\n"
        ++ "Executing program...\n"
        ++ s!"Total snapshots: {history.length}\n"
      return { Response.ok "" log with viewer := some (Viewer.replay program history) }
    | _ => throw "no execution history was recorded"

def perform (files : Files) (request : Request) : Except String Response := do
  let g ← loadGrammar files request.grammar
  let table ←
    if request.strict then
      match PredictionTable.strict g with
      | .ok table => pure table
      | .error error => throw error.message
    else pure (PredictionTable.ofGrammar g)
  match request.command with
  | .run arguments => run files table arguments
  | .parse file json => parse files table file json
  | .ast file json => ast files table file json
  | .table json => return printTable g table json
  | .tui arguments limit => tui files table arguments limit

/-- The files that a request may read. -/
def Request.files (request : Request) : List String :=
  request.grammar :: match request.command with
    | .run arguments | .tui arguments _ => arguments.file :: arguments.inputFile.toList
    | .parse file _ | .ast file _ => [file]
    | .table _ => []

/-- The response to the arguments of the program. -/
def respond (files : Files) (args : List String) : Response :=
  match readRequest args with
  | .error .usage => ⟨2, "", "", none⟩
  | .error .version => .ok versionLine ""
  | .error .help => .ok helpText ""
  | .ok request =>
    match perform files request with
    | .ok response => response
    | .error message => .error "" message

end StepCalc.CommandLine
