import StepCalc.ParseTree
import StepCalc.Program.Statement

/-!
# From trees to programs

`Program.ofTree` reads a parse tree of the calculator grammars as a program:

```text
P  → SL $$              SL → S SL | ε
S  → id := E | read id | write E | if R SL fi | do SL od | check R
R  → E ET               ET → ro E | ε
E  → T TT               TT → ao T TT | ε
T  → F FT               FT → mo F FT | ε
F  → id | num | ( E )
```

Keywords and parentheses are dropped, statement lists are flattened, and the tails `TT` and `FT`
become operators that group to the left. A condition may also be an `E`. A tree of any other shape
is refused where a reading from left to right first meets it.
-/

namespace StepCalc

/-- What a part of a tree was expected to be. -/
inductive Expectation where
  | program
  | programParts
  | statements
  | statementsParts
  | statement
  | statementParts
  | conditionParts
  | comparisonParts
  | sum
  | sumParts
  | sumTail
  | product
  | productParts
  | productTail
  | tailParts
  | factor
  | factorParts
  | operator
deriving DecidableEq, Repr

def Expectation.text : Expectation → String
  | program => "P"
  | programParts => "P → SL $$"
  | statements => "SL"
  | statementsParts => "SL → S SL | ε"
  | statement => "S"
  | statementParts => "a statement"
  | conditionParts => "R → E ET"
  | comparisonParts => "ET → ro E | ε"
  | sum => "E"
  | sumParts => "E → T TT"
  | sumTail => "TT"
  | product => "T"
  | productParts => "T → F FT"
  | productTail => "FT"
  | tailParts => "operator tail"
  | factor => "F"
  | factorParts => "F → id | num | ( E )"
  | operator => "an operator"

/-- A part of a tree that is not what it should be. -/
structure ShapeError where
  expected : Expectation
  found : ParseTree

def ShapeError.message (e : ShapeError) : String :=
  "malformed parse tree: expected " ++ e.expected.text ++ ", found " ++ e.found.shape

namespace ParseTree

def refuse {α : Type} (expected : Expectation) (found : ParseTree) : Except ShapeError α :=
  .error ⟨expected, found⟩

/-- The operator below a node with a single leaf. -/
def toOperator (tree : ParseTree) : Except ShapeError BinOp :=
  match tree with
  | node _ [literal mark] =>
    match BinOp.ofSymbol? mark with
    | some op => .ok op
    | none => refuse .operator tree
  | _ => refuse .operator tree

mutual

/-- The expression of an `E`. -/
def toExpr (tree : ParseTree) : Except ShapeError Expr :=
  match tree with
  | node name children =>
    if name = "E" then
      match children with
      | [term, tail] => do
        let lhs ← term.toTerm
        tail.foldSum lhs
      | _ => refuse .sumParts tree
    else refuse .sum tree
  | _ => refuse .sum tree

/-- The expression of a `T`. -/
def toTerm (tree : ParseTree) : Except ShapeError Expr :=
  match tree with
  | node name children =>
    if name = "T" then
      match children with
      | [factor, tail] => do
        let lhs ← factor.toFactor
        tail.foldProduct lhs
      | _ => refuse .productParts tree
    else refuse .product tree
  | _ => refuse .product tree

/-- The expression of an `F`. -/
def toFactor (tree : ParseTree) : Except ShapeError Expr :=
  match tree with
  | node name children =>
    if name = "F" then
      match children with
      | [identifier name] => .ok (.ident name)
      | [number text] => .ok (.number text)
      | [literal _, inner, literal _] => inner.toExpr
      | _ => refuse .factorParts tree
    else refuse .factor tree
  | _ => refuse .factor tree

/-- Applies the operators of a `TT` to `lhs`, from left to right. -/
def foldSum (lhs : Expr) (tree : ParseTree) : Except ShapeError Expr :=
  match tree with
  | node name children =>
    if name = "TT" then
      match children with
      | [] => .ok lhs
      | [op, operand, tail] => do
        let op ← op.toOperator
        let rhs ← operand.toTerm
        tail.foldSum (.binary op lhs rhs)
      | _ => refuse .tailParts tree
    else refuse .sumTail tree
  | _ => refuse .sumTail tree

/-- Applies the operators of an `FT` to `lhs`, from left to right. -/
def foldProduct (lhs : Expr) (tree : ParseTree) : Except ShapeError Expr :=
  match tree with
  | node name children =>
    if name = "FT" then
      match children with
      | [] => .ok lhs
      | [op, operand, tail] => do
        let op ← op.toOperator
        let rhs ← operand.toFactor
        tail.foldProduct (.binary op lhs rhs)
      | _ => refuse .tailParts tree
    else refuse .productTail tree
  | _ => refuse .productTail tree

end

/-- The condition of an `R`, an expression or one comparison, or that of a bare `E`. -/
def toCondition (tree : ParseTree) : Except ShapeError Expr :=
  match tree with
  | node name children =>
    if name = "R" then
      match children with
      | [lhs, node tailName rest] =>
        if tailName = "ET" then do
          let lhs ← lhs.toExpr
          match rest with
          | [] => .ok lhs
          | [op, rhs] => do
            let op ← op.toOperator
            let rhs ← rhs.toExpr
            .ok (.binary op lhs rhs)
          | _ => refuse .comparisonParts (node tailName rest)
        else refuse .conditionParts tree
      | _ => refuse .conditionParts tree
    else tree.toExpr
  | _ => tree.toExpr

mutual

/-- The statement of an `S`. -/
def toStatement (tree : ParseTree) : Except ShapeError Statement :=
  match tree with
  | node name children =>
    if name = "S" then
      match children with
      | [identifier target, literal _, expr] => do
        let expr ← expr.toExpr
        .ok (.assign target expr)
      | [literal "read", identifier target] => .ok (.read target)
      | [literal "write", expr] => do
        let expr ← expr.toExpr
        .ok (.write expr)
      | [literal "check", condition] => do
        let condition ← condition.toCondition
        .ok (.check condition)
      | [literal "if", condition, body, literal _] => do
        let condition ← condition.toCondition
        let body ← body.toStatements
        .ok (.branch condition body)
      | [literal "do", body, literal _] => do
        let body ← body.toStatements
        .ok (.loop body)
      | _ => refuse .statementParts tree
    else refuse .statement tree
  | _ => refuse .statement tree

/-- The statements of an `SL`. -/
def toStatements (tree : ParseTree) : Except ShapeError (List Statement) :=
  match tree with
  | node name children =>
    if name = "SL" then
      match children with
      | [] => .ok []
      | [first, rest] => do
        let first ← first.toStatement
        let rest ← rest.toStatements
        .ok (first :: rest)
      | _ => refuse .statementsParts tree
    else refuse .statements tree
  | _ => refuse .statements tree

end

end ParseTree

/-- The program of a `P`. A failed parse is the program that reports its failure when run. -/
def Program.ofTree (tree : ParseTree) : Except ShapeError Program :=
  match tree with
  | .failed => .ok ⟨[.erroneous]⟩
  | .node name children =>
    if name = "P" then
      match children with
      | [list, .literal _] => do
        let statements ← list.toStatements
        .ok ⟨statements⟩
      | _ => tree.refuse .programParts
    else tree.refuse .program
  | _ => tree.refuse .program

end StepCalc
