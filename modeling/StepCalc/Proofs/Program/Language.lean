import StepCalc.Program.Statement
import StepCalc.Token.Basic

/-!
# The calculator language

The grammar of the language as one would write it for a reader, with the program that each phrase
stands for. It speaks of the kinds and the texts of tokens, and its operators group to the left:

```text
Expr ::= Term   | Expr (+|-) Term          Stmt ::= Identifier := Expr
Term ::= Factor | Term (*|/) Factor               | read Identifier
Factor ::= Identifier | Number | ( Expr )         | write Expr
Cond ::= Expr                                     | if Cond Stmt* fi
       | Expr (==|<>|<|>|<=|>=) Expr              | do Stmt* od
Prog ::= Stmt* End                                | check Cond
```

Neither the symbols of the grammars that the parser runs on nor its trees occur here.
-/

namespace StepCalc

/-- The token is the keyword or mark `text`. -/
def Token.Is (token : Token) (text : String) : Prop := token.kind = .literal ∧ token.lexeme = text

/-- The token is a mark of the table and stands for `op`. -/
def Token.StandsFor (token : Token) (table : List (String × BinOp)) (op : BinOp) : Prop :=
  token.kind = .literal ∧ (token.lexeme, op) ∈ table

namespace Language

def sumOperators : List (String × BinOp) := [("+", .add), ("-", .sub)]

def productOperators : List (String × BinOp) := [("*", .mul), ("/", .div)]

def comparisons : List (String × BinOp) :=
  [("==", .eq), ("<>", .ne), ("<", .lt), (">", .gt), ("<=", .le), (">=", .ge)]

mutual

/-- `tokens` are a phrase for the expression, made of terms. -/
inductive IsExpr : List Token → Expr → Prop
  | term {tokens : List Token} {e : Expr} (hterm : IsTerm tokens e) : IsExpr tokens e
  | binary {left right : List Token} {mark : Token} {op : BinOp} {lhs rhs : Expr}
      (hleft : IsExpr left lhs) (hmark : mark.StandsFor sumOperators op)
      (hright : IsTerm right rhs) : IsExpr (left ++ mark :: right) (.binary op lhs rhs)

/-- `tokens` are a phrase for the expression, made of factors. -/
inductive IsTerm : List Token → Expr → Prop
  | factor {tokens : List Token} {e : Expr} (hfactor : IsFactor tokens e) : IsTerm tokens e
  | binary {left right : List Token} {mark : Token} {op : BinOp} {lhs rhs : Expr}
      (hleft : IsTerm left lhs) (hmark : mark.StandsFor productOperators op)
      (hright : IsFactor right rhs) : IsTerm (left ++ mark :: right) (.binary op lhs rhs)

/-- `tokens` are a name, a number or an expression in parentheses. -/
inductive IsFactor : List Token → Expr → Prop
  | ident {token : Token} (hkind : token.kind = .identifier) :
      IsFactor [token] (.ident token.lexeme)
  | number {token : Token} (hkind : token.kind = .number) : IsFactor [token] (.number token.lexeme)
  | parentheses {opening closing : Token} {tokens : List Token} {e : Expr}
      (hopening : opening.Is "(") (hinner : IsExpr tokens e) (hclosing : closing.Is ")") :
      IsFactor (opening :: tokens ++ [closing]) e

end

/-- `tokens` are an expression or one comparison. -/
inductive IsCondition : List Token → Expr → Prop
  | expr {tokens : List Token} {e : Expr} (hexpr : IsExpr tokens e) : IsCondition tokens e
  | comparison {left right : List Token} {mark : Token} {op : BinOp} {lhs rhs : Expr}
      (hleft : IsExpr left lhs) (hmark : mark.StandsFor comparisons op)
      (hright : IsExpr right rhs) : IsCondition (left ++ mark :: right) (.binary op lhs rhs)

mutual

/-- `tokens` are a phrase for the statement. -/
inductive IsStatement : List Token → Statement → Prop
  | assign {target mark : Token} {tokens : List Token} {e : Expr}
      (htarget : target.kind = .identifier) (hmark : mark.Is ":=") (hexpr : IsExpr tokens e) :
      IsStatement (target :: mark :: tokens) (.assign target.lexeme e)
  | read {word target : Token} (hword : word.Is "read") (htarget : target.kind = .identifier) :
      IsStatement [word, target] (.read target.lexeme)
  | write {word : Token} {tokens : List Token} {e : Expr} (hword : word.Is "write")
      (hexpr : IsExpr tokens e) : IsStatement (word :: tokens) (.write e)
  | branch {opening closing : Token} {condition body : List Token} {e : Expr}
      {statements : List Statement} (hopening : opening.Is "if")
      (hcondition : IsCondition condition e) (hbody : IsStatements body statements)
      (hclosing : closing.Is "fi") :
      IsStatement (opening :: (condition ++ body) ++ [closing]) (.branch e statements)
  | loop {opening closing : Token} {body : List Token} {statements : List Statement}
      (hopening : opening.Is "do") (hbody : IsStatements body statements)
      (hclosing : closing.Is "od") :
      IsStatement (opening :: body ++ [closing]) (.loop statements)
  | check {word : Token} {condition : List Token} {e : Expr} (hword : word.Is "check")
      (hcondition : IsCondition condition e) : IsStatement (word :: condition) (.check e)

/-- `tokens` are phrases for the statements, one after the other. -/
inductive IsStatements : List Token → List Statement → Prop
  | nil : IsStatements [] []
  | cons {tokens rest : List Token} {statement : Statement} {statements : List Statement}
      (hfirst : IsStatement tokens statement) (hrest : IsStatements rest statements) :
      IsStatements (tokens ++ rest) (statement :: statements)

end

/-- `tokens` are the statements of the program and the end of the source. -/
inductive IsProgram : List Token → Program → Prop
  | intro {tokens : List Token} {statements : List Statement} {last : Token}
      (hstatements : IsStatements tokens statements) (hlast : last.kind = .finish) :
      IsProgram (tokens ++ [last]) ⟨statements⟩

end Language

end StepCalc
