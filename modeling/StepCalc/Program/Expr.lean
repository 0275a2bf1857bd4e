/-!
# Expressions

Expressions over identifiers, literals and ten binary operators. Printing puts parentheses exactly
where the precedence of the operators and their grouping to the left need them.
-/

namespace StepCalc

/-- The binary operators. -/
inductive BinOp where
  | add | sub | mul | div
  | eq | ne | lt | gt | le | ge
deriving DecidableEq, Repr

namespace BinOp

/-- The mark of an operator. -/
def symbol : BinOp → String
  | add => "+"
  | sub => "-"
  | mul => "*"
  | div => "/"
  | eq => "=="
  | ne => "<>"
  | lt => "<"
  | gt => ">"
  | le => "<="
  | ge => ">="

def all : List BinOp := [add, sub, mul, div, eq, ne, lt, gt, le, ge]

def ofSymbol? (mark : String) : Option BinOp := all.find? fun op => op.symbol == mark

/-- How tightly an operator binds. -/
def precedence : BinOp → Nat
  | mul | div => 3
  | add | sub => 2
  | _ => 1

end BinOp

/-- An expression. A literal keeps its text; what it denotes is a matter of evaluation. -/
inductive Expr where
  | binary (op : BinOp) (lhs rhs : Expr)
  | ident (name : String)
  | number (text : String)
deriving DecidableEq, Repr

namespace Expr

/-- The text of an expression that stands where operators of at least the precedence `outer` are
written without parentheses. Since operators group to the left, a right operand of the same
precedence has them. -/
def renderAt (outer : Nat) : Expr → String
  | ident name => name
  | number text => text
  | binary op lhs rhs =>
    let inner :=
      lhs.renderAt op.precedence ++ " " ++ op.symbol ++ " " ++ rhs.renderAt (op.precedence + 1)
    if op.precedence < outer then "(" ++ inner ++ ")" else inner

/-- The text of an expression. -/
def render (e : Expr) : String := e.renderAt 0

end Expr

end StepCalc
