import StepCalc.Proofs.Program.Language
import StepCalc.Proofs.Token.Spelling

/-!
# Well-formed programs

A program is well formed if its names and numerals are spelled as the scanner spells them, a
comparison stands only at the root of the condition of a `branch` or a `check`, and it has no
statement that stands for a failed parse. Every program that a source is a phrase for is well
formed (`wellFormed_of_isProgram`).
-/

namespace StepCalc

open Vocabulary (IsNumeral)

def BinOp.isComparison : BinOp → Bool
  | eq | ne | lt | gt | le | ge => true
  | add | sub | mul | div => false

namespace Expr

/-- Names and numerals are spelled as such, and nothing is compared. -/
def IsArithmetic : Expr → Prop
  | binary op lhs rhs => op.isComparison = false ∧ lhs.IsArithmetic ∧ rhs.IsArithmetic
  | ident name => Vocabulary.calculator.IsName name
  | number text => IsNumeral text

/-- An arithmetic expression, or one comparison of two of them. -/
def IsTest : Expr → Prop
  | binary _ lhs rhs => lhs.IsArithmetic ∧ rhs.IsArithmetic
  | e => e.IsArithmetic

theorem IsArithmetic.isTest {e : Expr} (h : e.IsArithmetic) : e.IsTest := by
  cases e with
  | binary op lhs rhs => exact h.2
  | ident name => exact h
  | number text => exact h

end Expr

namespace Statement

mutual

/-- The parts of the statement are well formed, and none stands for a failed parse. -/
def WellFormed : Statement → Prop
  | assign name expr => Vocabulary.calculator.IsName name ∧ expr.IsArithmetic
  | read name => Vocabulary.calculator.IsName name
  | write expr => expr.IsArithmetic
  | branch condition body => condition.IsTest ∧ AllWellFormed body
  | loop body => AllWellFormed body
  | check condition => condition.IsTest
  | erroneous => False

def AllWellFormed : List Statement → Prop
  | [] => True
  | s :: rest => s.WellFormed ∧ AllWellFormed rest

end

end Statement

def Program.WellFormed (p : Program) : Prop := Statement.AllWellFormed p.statements

namespace Language

/-! ## Phrases stand for well-formed programs -/

theorem isComparison_of_standsFor {mark : Token} {table : List (String × BinOp)} {op : BinOp}
    (htable : table = sumOperators ∨ table = productOperators) (h : mark.StandsFor table op) :
    op.isComparison = false := by
  have hnone : ∀ entry ∈ sumOperators ++ productOperators, entry.2.isComparison = false := by
    decide
  refine hnone (mark.lexeme, op) (List.mem_append.mpr ?_)
  rcases htable with rfl | rfl
  · exact Or.inl h.2
  · exact Or.inr h.2

mutual

theorem isArithmetic_of_isExpr {tokens : List Token} {e : Expr} (h : IsExpr tokens e)
    (htokens : ∀ token ∈ tokens, Vocabulary.calculator.Spelled token) : e.IsArithmetic := by
  match h with
  | .term hterm => exact isArithmetic_of_isTerm hterm htokens
  | .binary hleft hmark hright =>
    obtain ⟨hl, hr⟩ := List.forall_mem_append.mp htokens
    exact ⟨isComparison_of_standsFor (Or.inl rfl) hmark, isArithmetic_of_isExpr hleft hl,
      isArithmetic_of_isTerm hright (List.forall_mem_cons.mp hr).2⟩

theorem isArithmetic_of_isTerm {tokens : List Token} {e : Expr} (h : IsTerm tokens e)
    (htokens : ∀ token ∈ tokens, Vocabulary.calculator.Spelled token) : e.IsArithmetic := by
  match h with
  | .factor hfactor => exact isArithmetic_of_isFactor hfactor htokens
  | .binary hleft hmark hright =>
    obtain ⟨hl, hr⟩ := List.forall_mem_append.mp htokens
    exact ⟨isComparison_of_standsFor (Or.inr rfl) hmark, isArithmetic_of_isTerm hleft hl,
      isArithmetic_of_isFactor hright (List.forall_mem_cons.mp hr).2⟩

theorem isArithmetic_of_isFactor {tokens : List Token} {e : Expr} (h : IsFactor tokens e)
    (htokens : ∀ token ∈ tokens, Vocabulary.calculator.Spelled token) : e.IsArithmetic := by
  match h with
  | .ident hkind => exact (htokens _ List.mem_cons_self).name hkind
  | .number hkind => exact (htokens _ List.mem_cons_self).numeral hkind
  | .parentheses _ hinner _ =>
    refine isArithmetic_of_isExpr hinner fun token htoken => htokens token ?_
    exact List.mem_append_left _ (List.mem_cons_of_mem _ htoken)

end

theorem isTest_of_isCondition {tokens : List Token} {e : Expr} (h : IsCondition tokens e)
    (htokens : ∀ token ∈ tokens, Vocabulary.calculator.Spelled token) : e.IsTest := by
  cases h with
  | expr hexpr => exact (isArithmetic_of_isExpr hexpr htokens).isTest
  | comparison hleft hmark hright =>
    obtain ⟨hl, hr⟩ := List.forall_mem_append.mp htokens
    exact ⟨isArithmetic_of_isExpr hleft hl,
      isArithmetic_of_isExpr hright (List.forall_mem_cons.mp hr).2⟩

mutual

theorem wellFormed_of_isStatement {tokens : List Token} {s : Statement} (h : IsStatement tokens s)
    (htokens : ∀ token ∈ tokens, Vocabulary.calculator.Spelled token) : s.WellFormed := by
  match h with
  | .assign htarget _ hexpr =>
    obtain ⟨hname, hrest⟩ := List.forall_mem_cons.mp htokens
    exact ⟨hname.name htarget, isArithmetic_of_isExpr hexpr (List.forall_mem_cons.mp hrest).2⟩
  | .read _ htarget =>
    exact (htokens _ (List.mem_cons_of_mem _ List.mem_cons_self)).name htarget
  | .write _ hexpr => exact isArithmetic_of_isExpr hexpr (List.forall_mem_cons.mp htokens).2
  | .branch _ hcondition hbody _ =>
    obtain ⟨hinner, _⟩ := List.forall_mem_append.mp htokens
    obtain ⟨hc, hb⟩ := List.forall_mem_append.mp (List.forall_mem_cons.mp hinner).2
    exact ⟨isTest_of_isCondition hcondition hc, allWellFormed_of_isStatements hbody hb⟩
  | .loop _ hbody _ =>
    obtain ⟨hinner, _⟩ := List.forall_mem_append.mp htokens
    exact allWellFormed_of_isStatements hbody (List.forall_mem_cons.mp hinner).2
  | .check _ hcondition =>
    exact isTest_of_isCondition hcondition (List.forall_mem_cons.mp htokens).2

theorem allWellFormed_of_isStatements {tokens : List Token} {statements : List Statement}
    (h : IsStatements tokens statements)
    (htokens : ∀ token ∈ tokens, Vocabulary.calculator.Spelled token) :
    Statement.AllWellFormed statements := by
  match h with
  | .nil => exact trivial
  | .cons hfirst hrest =>
    obtain ⟨hf, hr⟩ := List.forall_mem_append.mp htokens
    exact ⟨wellFormed_of_isStatement hfirst hf, allWellFormed_of_isStatements hrest hr⟩

end

theorem wellFormed_of_isProgram {source : String} {p : Program}
    (h : IsProgram (Vocabulary.calculator.scan source) p) : p.WellFormed := by
  have htokens : ∀ token ∈ Vocabulary.calculator.scan source, Vocabulary.calculator.Spelled token :=
    fun token htoken => Vocabulary.calculator.spelled_of_mem_scan htoken
  generalize Vocabulary.calculator.scan source = tokens at h htokens
  obtain ⟨hstatements, _⟩ := h
  exact allWellFormed_of_isStatements hstatements (List.forall_mem_append.mp htokens).1

end Language

end StepCalc
