import StepCalc.Text.Column

/-!
# Structured documents

A `Document` is a tree of texts, numbers, truth values, lists and records with ordered fields.
`Document.pretty` writes it as JSON with one item or field per line and two spaces per level.
-/

namespace StepCalc

/-- A JSON value whose fields keep the order they were given in. -/
inductive Document where
  | text (value : String)
  | number (value : Nat)
  | truth (value : Bool)
  | list (items : List Document)
  | record (fields : List (String × Document))

namespace Document

def hexDigit (n : Nat) : Char :=
  if n < 10 then Char.ofNat ('0'.toNat + n) else Char.ofNat ('a'.toNat + (n - 10))

/-- The characters that stand for `c` between quotes: quotes, backslashes and control characters
are escaped, by their short escape if they have one. -/
def escaped (c : Char) : List Char :=
  if c = '"' then ['\\', '"']
  else if c = '\\' then ['\\', '\\']
  else if c = '\n' then ['\\', 'n']
  else if c = '\r' then ['\\', 'r']
  else if c = '\t' then ['\\', 't']
  else if c = '\x08' then ['\\', 'b']
  else if c = '\x0c' then ['\\', 'f']
  else if c.toNat < 0x20 then
    ['\\', 'u', '0', '0', hexDigit (c.toNat / 16), hexDigit (c.toNat % 16)]
  else [c]

def quoted (text : String) : String :=
  String.ofList ('"' :: text.toList.flatMap escaped ++ ['"'])

/-- A bracketed block with one entry per line, `depth` levels deep. -/
def block (opening closing : String) (depth : Nat) (entries : List String) : String :=
  if entries.isEmpty then opening ++ closing
  else
    opening ++ "\n"
      ++ separated ",\n" (entries.map fun entry => repeated (depth + 1) "  " ++ entry)
      ++ "\n" ++ repeated depth "  " ++ closing

/-- The document as JSON text whose first line is already indented and whose further lines are
`depth` levels deep. -/
def render (depth : Nat) : Document → String
  | .text value => quoted value
  | .number value => toString value
  | .truth value => if value then "true" else "false"
  | .list items => block "[" "]" depth (items.attach.map fun item => item.1.render (depth + 1))
  | .record fields =>
    block "\x7b" "\x7d" depth
      (fields.attach.map fun field => quoted field.1.1 ++ ": " ++ field.1.2.render (depth + 1))
termination_by d => sizeOf d
decreasing_by
  · have := List.sizeOf_lt_of_mem item.2
    simp only [Document.list.sizeOf_spec]
    omega
  · obtain ⟨⟨name, d⟩, hmem⟩ := field
    have := List.sizeOf_lt_of_mem hmem
    simp only [Document.record.sizeOf_spec, Prod.mk.sizeOf_spec] at this ⊢
    omega

def pretty (d : Document) : String := d.render 0

end Document

end StepCalc
