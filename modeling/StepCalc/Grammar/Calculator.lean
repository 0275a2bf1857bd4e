import StepCalc.Grammar.Basic

/-!
# The calculator grammars

`Grammar.calculator` has assignment, `read` and `write` over arithmetic expressions;
`Grammar.extended` adds `if`, `do`, `check` and the comparisons.
-/

namespace StepCalc.Grammar

/-- Statements and expressions without control flow. -/
def calculator : Grammar where
  rules := [
    ⟨"P", [["SL", "$$"]]⟩,
    ⟨"SL", [["S", "SL"], []]⟩,
    ⟨"S", [["id", ":=", "E"], ["read", "id"], ["write", "E"]]⟩,
    ⟨"E", [["T", "TT"]]⟩,
    ⟨"T", [["F", "FT"]]⟩,
    ⟨"TT", [["ao", "T", "TT"], []]⟩,
    ⟨"FT", [["mo", "F", "FT"], []]⟩,
    ⟨"ao", [["+"], ["-"]]⟩,
    ⟨"mo", [["*"], ["/"]]⟩,
    ⟨"F", [["id"], ["num"], ["(", "E", ")"]]⟩]
  nonempty := by decide
  distinct := by decide
  named := by decide

/-- The calculator language with control flow and comparisons. -/
def extended : Grammar where
  rules := [
    ⟨"P", [["SL", "$$"]]⟩,
    ⟨"SL", [["S", "SL"], []]⟩,
    ⟨"S", [["id", ":=", "E"], ["read", "id"], ["write", "E"],
           ["if", "R", "SL", "fi"], ["do", "SL", "od"], ["check", "R"]]⟩,
    ⟨"R", [["E", "ET"]]⟩,
    ⟨"E", [["T", "TT"]]⟩,
    ⟨"T", [["F", "FT"]]⟩,
    ⟨"F", [["id"], ["num"], ["(", "E", ")"]]⟩,
    ⟨"ET", [["ro", "E"], []]⟩,
    ⟨"TT", [["ao", "T", "TT"], []]⟩,
    ⟨"FT", [["mo", "F", "FT"], []]⟩,
    ⟨"ro", [["=="], ["<>"], ["<"], [">"], ["<="], [">="]]⟩,
    ⟨"ao", [["+"], ["-"]]⟩,
    ⟨"mo", [["*"], ["/"]]⟩]
  nonempty := by decide
  distinct := by decide
  named := by decide

def builtin? (name : String) : Option Grammar :=
  if name = "calculator" ∨ name = "calc" then some calculator
  else if name = "extended" ∨ name = "ecg" then some extended
  else none

end StepCalc.Grammar
