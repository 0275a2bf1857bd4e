import StepCalc.Text.Counting
import StepCalc.Text.Decimal

/-!
# Command-line arguments

Options are written `--name value`, `--name=value`, `-n value`, `-nvalue` or `-n=value`, flags
`--name` or `-n`, and short flags may be clustered. A value that stands on its own must not look
like an option. The general options may stand before or after the name of the command; the ones
after it win. No option may be given twice at one level.
-/

namespace StepCalc.CommandLine

/-- What can be set. -/
inductive Setting where
  | grammar | strict | verbose
  | json
  | input | inputFile | maxSteps | snapshotLimit
  | help | version
deriving DecidableEq, Repr

namespace Setting

/-- The name after two dashes. -/
def long : Setting → String
  | grammar => "grammar"
  | strict => "strict"
  | verbose => "verbose"
  | json => "json"
  | input => "input"
  | inputFile => "input-file"
  | maxSteps => "max-steps"
  | snapshotLimit => "snapshot-limit-mb"
  | help => "help"
  | version => "version"

/-- The letter after one dash. -/
def short? : Setting → Option Char
  | grammar => some 'g'
  | verbose => some 'v'
  | help => some 'h'
  | version => some 'V'
  | _ => none

def takesValue : Setting → Bool
  | grammar | input | inputFile | maxSteps | snapshotLimit => true
  | _ => false

def general : List Setting := [grammar, strict, verbose, help]

end Setting

/-- Why arguments are not carried out. -/
inductive Stop where
  /-- They make no sense. -/
  | usage
  | help
  | version
deriving DecidableEq, Repr

/-- The settings given, with their values; flags have an empty one. -/
abbrev Settings := List (Setting × String)

/-! ## One level -/

/-- Whether an argument is written like an option. -/
def looksLikeOption (arg : String) : Bool := arg.startsWith "-" && arg != "-"

/-- One more setting. -/
def addSetting (given : Settings) (s : Setting) (value : String) : Except Stop Settings :=
  match s with
  | .help => .error .help
  | .version => .error .version
  | _ => if given.any fun entry => entry.1 = s then .error .usage else .ok (given ++ [(s, value)])

/-- One more setting, whose value is the next argument. -/
def addFromNext (given : Settings) (s : Setting) (next? : Option String) :
    Except Stop Settings :=
  match next? with
  | some value => if looksLikeOption value then .error .usage else addSetting given s value
  | none => .error .usage

/-- Reads the letters after a single dash. Also says whether the next argument was used. -/
def readShort (allowed : List Setting) (next? : Option String) (given : Settings) :
    List Char → Except Stop (Settings × Bool)
  | [] => .ok (given, false)
  | c :: rest =>
    match allowed.find? fun s => s.short? == some c with
    | none => .error .usage
    | some s =>
      if s.takesValue then
        match rest with
        | [] => (addFromNext given s next?).map fun given => (given, true)
        | '=' :: value => (addSetting given s (String.ofList value)).map fun given => (given, false)
        | value => (addSetting given s (String.ofList value)).map fun given => (given, false)
      else
        match addSetting given s "" with
        | .ok given => readShort allowed next? given rest
        | .error stop => .error stop

/-- Reads what comes after two dashes. Also says whether the next argument was used. -/
def readLong (allowed : List Setting) (next? : Option String) (given : Settings)
    (text : List Char) : Except Stop (Settings × Bool) :=
  let name := String.ofList (text.takeWhile (· ≠ '='))
  let attached? := match text.dropWhile (· ≠ '=') with
    | _ :: value => some (String.ofList value)
    | [] => none
  match allowed.find? fun s => s.long == name with
  | none => .error .usage
  | some s =>
    match s.takesValue, attached? with
    | true, some value => (addSetting given s value).map fun given => (given, false)
    | true, none => (addFromNext given s next?).map fun given => (given, true)
    | false, some _ => .error .usage
    | false, none => (addSetting given s "").map fun given => (given, false)

def readOption (allowed : List Setting) (next? : Option String) (given : Settings)
    (arg : String) : Except Stop (Settings × Bool) :=
  match arg.toList with
  | '-' :: '-' :: text => readLong allowed next? given text
  | _ :: letters => readShort allowed next? given letters
  | [] => .error .usage

/-- What the arguments of one level say. -/
structure Level where
  settings : Settings
  words : List String
  /-- What comes after the first word, where the level ends with it. -/
  rest : List String

/-- Reads the arguments of one level: up to the first word if `stopAtWord`, to the end otherwise.
After `--` there are only words, which do not end a level. -/
def readLevel (allowed : List Setting) (stopAtWord : Bool) (given : Settings)
    (words : List String) (args : List String) : Except Stop Level :=
  match args with
  | [] => .ok ⟨given, words, []⟩
  | arg :: rest =>
    if arg = "--" then
      if stopAtWord then .error .usage else .ok ⟨given, words ++ rest, []⟩
    else if looksLikeOption arg then
      match readOption allowed rest.head? given arg with
      | .error stop => .error stop
      | .ok (given, true) => readLevel allowed stopAtWord given words rest.tail
      | .ok (given, false) => readLevel allowed stopAtWord given words rest
    else if stopAtWord then .ok ⟨given, words ++ [arg], rest⟩
    else readLevel allowed stopAtWord given (words ++ [arg]) rest
termination_by args.length
decreasing_by
  all_goals simp only [List.length_cons, List.length_tail]; omega

/-! ## Commands -/

structure RunArguments where
  file : String
  input : Option String
  inputFile : Option String
  maxSteps : Option Nat
deriving DecidableEq, Repr

/-- What can be asked for. -/
inductive Command where
  | run (arguments : RunArguments)
  | parse (file : String) (json : Bool)
  | ast (file : String) (json : Bool)
  | table (json : Bool)
  /-- Runs a program and opens the step viewer; the history limit is in mebibytes. -/
  | tui (arguments : RunArguments) (snapshotLimit : Nat)
deriving DecidableEq, Repr

structure Request where
  grammar : String
  strict : Bool
  verbose : Bool
  command : Command
deriving DecidableEq, Repr

/-- A count of 64 bits: an optional plus sign, then digits. -/
def readCount? (text : String) : Option Nat :=
  let digits := match text.toList with
    | '+' :: digits => digits
    | digits => digits
  (readDigits? digits).filter fun n => n ≤ maxCount

def isSet (given : Settings) (s : Setting) : Bool := given.any fun entry => entry.1 = s

/-- The count given for a setting, if it is given. -/
def count? (given : Settings) (s : Setting) : Except Stop (Option Nat) :=
  match given.lookup s with
  | none => .ok none
  | some text =>
    match readCount? text with
    | some n => .ok (some n)
    | none => .error .usage

/-- The one word that names a file; an empty one does not. -/
def onlyFile (words : List String) : Except Stop String :=
  match words with
  | [file] => if file = "" then .error .usage else .ok file
  | _ => .error .usage

/-- The arguments of a run. Its input is given in one way at most. -/
def runArguments (level : Level) : Except Stop RunArguments := do
  let input := level.settings.lookup .input
  let inputFile := level.settings.lookup .inputFile
  if input.isSome && inputFile.isSome then throw .usage
  if inputFile = some "" then throw .usage
  let maxSteps ← count? level.settings .maxSteps
  let file ← onlyFile level.words
  return ⟨file, input, inputFile, maxSteps⟩

/-- The history limit of the step viewer, if none is given, in mebibytes. -/
def defaultSnapshotLimit : Nat := 256

/-- The settings of a command, besides the general ones. -/
def commandSettings : String → Option (List Setting)
  | "run" => some [.input, .inputFile, .maxSteps]
  | "parse" | "ast" => some [.json]
  | "table" => some [.json]
  | "tui" => some [.input, .inputFile, .maxSteps, .snapshotLimit]
  | _ => none

def readCommand (name : String) (level : Level) : Except Stop Command :=
  let json := isSet level.settings .json
  match name with
  | "run" => (runArguments level).map .run
  | "parse" => (onlyFile level.words).map (.parse · json)
  | "ast" => (onlyFile level.words).map (.ast · json)
  | "table" => if level.words.isEmpty then .ok (.table json) else .error .usage
  | "tui" => do
    let limit ← count? level.settings .snapshotLimit
    let arguments ← runArguments level
    return .tui arguments (limit.getD defaultSnapshotLimit)
  | _ => .error .usage

def defaultGrammar : String := "extended"

def readRequest (args : List String) : Except Stop Request := do
  let outer ← readLevel (.version :: Setting.general) true [] [] args
  match outer.words with
  | [name] =>
    match name, commandSettings name with
    | "help", _ => throw .help
    | _, none => throw .usage
    | _, some settings =>
      let inner ← readLevel (settings ++ Setting.general) false [] [] outer.rest
      let command ← readCommand name inner
      let grammar := (inner.settings.lookup .grammar).or (outer.settings.lookup .grammar)
      return {
        grammar := grammar.getD defaultGrammar
        strict := isSet inner.settings .strict || isSet outer.settings .strict
        verbose := isSet inner.settings .verbose || isSet outer.settings .verbose
        command }
  | _ => throw .usage

end StepCalc.CommandLine
