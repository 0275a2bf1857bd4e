/-!
# Columns of text

Left-aligned columns are padded with spaces on the right. Widths count characters; text that is
wider than its column is kept whole.
-/

namespace StepCalc

/-- `text` followed by spaces up to `width` characters. -/
def padRight (width : Nat) (text : String) : String :=
  text ++ String.ofList (List.replicate (width - text.length) ' ')

/-- `count` copies of `unit` in a row. -/
def repeated (count : Nat) (unit : String) : String :=
  String.join (List.replicate count unit)

/-- `lines`, each followed by a line break. -/
def joinLines (lines : List String) : String :=
  String.join (lines.map (· ++ "\n"))

/-- `items` with `separator` between neighbours. -/
def separated (separator : String) (items : List String) : String :=
  separator.intercalate items

end StepCalc
