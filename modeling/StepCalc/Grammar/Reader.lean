import StepCalc.Grammar.Basic

/-!
# Reading a grammar from text

A grammar is written as a JSON array of pairs `[name, [[symbol, …], …]]`. The text is cut into
brackets, commas and strings, and these are read as rules. Nothing else may stand in the text but
spaces, tabs and line ends between the pieces.
-/

namespace StepCalc.Grammar.Reader

/-- What the text of a grammar is made of. -/
inductive Piece where
  | opening
  | closing
  | comma
  | text (value : String)
deriving DecidableEq, Repr

/-! ## Strings -/

def hexValue? (c : Char) : Option Nat :=
  if '0' ≤ c ∧ c ≤ '9' then some (c.toNat - '0'.toNat)
  else if 'a' ≤ c ∧ c ≤ 'f' then some (c.toNat - 'a'.toNat + 10)
  else if 'A' ≤ c ∧ c ≤ 'F' then some (c.toNat - 'A'.toNat + 10)
  else none

/-- The code unit that four hexadecimal digits denote. -/
def unit? (a b c d : Char) : Option Nat := do
  let a ← hexValue? a
  let b ← hexValue? b
  let c ← hexValue? c
  let d ← hexValue? d
  return ((a * 16 + b) * 16 + c) * 16 + d

def isHighSurrogate (unit : Nat) : Bool := 0xD800 ≤ unit && unit < 0xDC00

def isLowSurrogate (unit : Nat) : Bool := 0xDC00 ≤ unit && unit < 0xE000

/-- The character of a surrogate pair. -/
def combine (high low : Nat) : Char :=
  Char.ofNat (0x10000 + (high - 0xD800) * 0x400 + (low - 0xDC00))

/-- The character that a one-letter escape stands for. -/
def escape? (c : Char) : Option Char :=
  match c with
  | '"' => some '"'
  | '\\' => some '\\'
  | '/' => some '/'
  | 'b' => some '\x08'
  | 'f' => some '\x0c'
  | 'n' => some '\n'
  | 'r' => some '\r'
  | 't' => some '\t'
  | _ => none

/-- The characters of a string up to its closing quote, and the text after the quote. Control
characters, unknown escapes and halves of surrogate pairs are refused. -/
def stringBody? : List Char → Option (List Char × List Char)
  | [] => none
  | '"' :: rest => some ([], rest)
  | '\\' :: 'u' :: a :: b :: c :: d :: '\\' :: 'u' :: a' :: b' :: c' :: d' :: rest => do
    let unit ← unit? a b c d
    if isHighSurrogate unit then
      let low ← unit? a' b' c' d'
      if isLowSurrogate low then
        let (body, after) ← stringBody? rest
        return (combine unit low :: body, after)
      else none
    else if isLowSurrogate unit then none
    else
      let (body, after) ← stringBody? ('\\' :: 'u' :: a' :: b' :: c' :: d' :: rest)
      return (Char.ofNat unit :: body, after)
  | '\\' :: 'u' :: a :: b :: c :: d :: rest => do
    let unit ← unit? a b c d
    if isHighSurrogate unit || isLowSurrogate unit then none
    else
      let (body, after) ← stringBody? rest
      return (Char.ofNat unit :: body, after)
  | '\\' :: c :: rest => do
    let char ← escape? c
    let (body, after) ← stringBody? rest
    return (char :: body, after)
  | c :: rest =>
    if c = '\\' ∨ c.toNat < 0x20 then none
    else do
      let (body, after) ← stringBody? rest
      return (c :: body, after)

/-! ## Pieces -/

/-- Whether `c` may stand between two pieces. -/
def isGap (c : Char) : Bool := c == ' ' || c == '\t' || c == '\n' || c == '\r'

/-- The pieces of a text; none if something else occurs in it. -/
def pieces? : List Char → Option (List Piece)
  | [] => some []
  | c :: rest =>
    if isGap c then pieces? rest
    else if c = '[' then (pieces? rest).map (.opening :: ·)
    else if c = ']' then (pieces? rest).map (.closing :: ·)
    else if c = ',' then (pieces? rest).map (.comma :: ·)
    else if c = '"' then
      match stringBody? rest with
      | some (body, after) =>
        if after.length < rest.length then
          (pieces? after).map (.text (String.ofList body) :: ·)
        else none
      | none => none
    else none
termination_by cs => cs.length

/-! ## Rules -/

/-- A reader of one item from the front of a list of pieces. -/
abbrev Item (α : Type) := List Piece → Option (α × List Piece)

/-- One or more items with commas between them, up to the closing bracket. -/
def itemsUntilClosing {α : Type} (item : Item α) (input : List Piece) :
    Option (List α × List Piece) := do
  let (first, rest) ← item input
  match rest with
  | .closing :: after => return ([first], after)
  | .comma :: next =>
    if next.length < input.length then
      let (others, after) ← itemsUntilClosing item next
      return (first :: others, after)
    else none
  | _ => none
termination_by input.length

/-- A bracketed list of items. -/
def listOf {α : Type} (item : Item α) : Item (List α)
  | .opening :: .closing :: after => some ([], after)
  | .opening :: rest => itemsUntilClosing item rest
  | _ => none

def symbol : Item String
  | .text value :: rest => some (value, rest)
  | _ => none

/-- A pair of a name and its alternatives. -/
def rule : Item Rule
  | .opening :: .text name :: .comma :: rest => do
    let (alternatives, after) ← listOf (listOf symbol) rest
    match after with
    | .closing :: after => return (⟨name, alternatives⟩, after)
    | _ => none
  | _ => none

def rules? (text : String) : Option (List Rule) := do
  let input ← pieces? text.toList
  match ← listOf rule input with
  | (rules, []) => return rules
  | _ => none

end Reader

def ofText (text : String) : Except GrammarError Grammar :=
  match Reader.rules? text with
  | some rules => ofRules rules
  | none => .error .malformedText

end StepCalc.Grammar
