/-!
# Tokens

A token is a piece of source text with its kind and the place where it starts. The parser sees
only its terminal: the text itself for keywords and marks, one name per kind otherwise.
-/

namespace StepCalc

/-- A place in a text; lines and columns count from one, columns in characters. -/
structure Location where
  line : Nat
  column : Nat
deriving DecidableEq, Repr

namespace Location

def origin : Location := ⟨1, 1⟩

/-- The place after `c`; only a line feed starts a new line. -/
def advance (l : Location) (c : Char) : Location :=
  if c = '\n' then ⟨l.line + 1, 1⟩ else ⟨l.line, l.column + 1⟩

def after (l : Location) (text : List Char) : Location := text.foldl advance l

def message (l : Location) : String := s!"line {l.line}, column {l.column}"

end Location

/-- The kinds of tokens. -/
inductive TokenKind where
  /-- A keyword or a mark. -/
  | literal
  | identifier
  | number
  /-- Text that is no token of the language. -/
  | unknown
  /-- The end of the source. -/
  | finish
deriving DecidableEq, Repr

/-- A located token. -/
structure Token where
  kind : TokenKind
  lexeme : String
  location : Location
deriving DecidableEq, Repr

namespace Token

def identifierTerminal : String := "id"

def numberTerminal : String := "num"

/-- The terminal, and the lexeme, of the end of the source. -/
def finishTerminal : String := "$$"

def unknownTerminal : String := "<lexical error>"

/-- What a message calls the end of the source. -/
def finishText : String := "end of input"

/-- The grammar symbol that the token matches. -/
def terminal (t : Token) : String :=
  match t.kind with
  | .literal => t.lexeme
  | .identifier => identifierTerminal
  | .number => numberTerminal
  | .unknown => unknownTerminal
  | .finish => finishTerminal

/-- What a message calls the token. -/
def shown (t : Token) : String :=
  match t.kind with
  | .finish => finishText
  | _ => t.lexeme

end Token

end StepCalc
