import StepCalc.Program.Expr
import StepCalc.Text.Column

/-!
# Programs

A program is a list of statements. Statements are numbered from zero in the order in which they
are written, a body right after the statement it belongs to; the number of a statement in this
order is its id. The `listing` shows one line per statement with its id, and one line without an
id for each `fi` and `od`.
-/

namespace StepCalc

/-- A statement. -/
inductive Statement where
  | assign (name : String) (expr : Expr)
  | read (name : String)
  | write (expr : Expr)
  /-- Runs the body if the condition is not zero. -/
  | branch (condition : Expr) (body : List Statement)
  /-- Repeats the body until a `check` in it fails. -/
  | loop (body : List Statement)
  | check (condition : Expr)
  /-- Stands for a source that could not be parsed. -/
  | erroneous

/-- A line of a listing. -/
structure ListingLine where
  text : String
  depth : Nat
  /-- The id of the statement that starts here. -/
  statement : Option Nat
deriving DecidableEq, Repr

namespace Statement

mutual

/-- The number of statements in this one, itself included. -/
def size : Statement → Nat
  | branch _ body | loop body => 1 + sizeOfAll body
  | _ => 1

/-- The number of statements in a list, nested ones included. -/
def sizeOfAll : List Statement → Nat
  | [] => 0
  | s :: rest => s.size + sizeOfAll rest

end

/-- The first line of a statement. -/
def header : Statement → String
  | assign name expr => name ++ " := " ++ expr.render
  | read name => "read " ++ name
  | write expr => "write " ++ expr.render
  | branch condition _ => "if " ++ condition.render
  | loop _ => "do"
  | check condition => "check " ++ condition.render
  | erroneous => "<error>"

mutual

/-- The lines of a statement that gets the id `next`, and the id that is next after it. -/
def listing (depth next : Nat) (s : Statement) : List ListingLine × Nat :=
  let first := ⟨s.header, depth, some next⟩
  let next := next + 1
  match s with
  | branch _ body =>
    let (inner, next) := listingOfAll (depth + 1) next body
    (first :: (inner ++ [⟨"fi", depth, none⟩]), next)
  | loop body =>
    let (inner, next) := listingOfAll (depth + 1) next body
    (first :: (inner ++ [⟨"od", depth, none⟩]), next)
  | _ => ([first], next)

/-- The lines of a list of statements, the first of which gets the id `next`, and the id that is
next after them. -/
def listingOfAll (depth next : Nat) : List Statement → List ListingLine × Nat
  | [] => ([], next)
  | s :: rest =>
    let (first, next) := s.listing depth next
    let (others, next) := listingOfAll depth next rest
    (first ++ others, next)

end

/-! ## Equality -/

mutual

def same : Statement → Statement → Bool
  | assign x e, assign y f => x = y && e = f
  | read x, read y => x = y
  | write e, write f => e = f
  | branch e as, branch f bs => e = f && sameAll as bs
  | loop as, loop bs => sameAll as bs
  | check e, check f => e = f
  | erroneous, erroneous => true
  | _, _ => false

def sameAll : List Statement → List Statement → Bool
  | [], [] => true
  | a :: as, b :: bs => a.same b && sameAll as bs
  | _, _ => false

end

mutual

theorem same_iff : (a b : Statement) → (a.same b = true ↔ a = b)
  | assign _ _, b => by cases b <;> simp [same]
  | read _, b => by cases b <;> simp [same]
  | write _, b => by cases b <;> simp [same]
  | branch _ as, b => by cases b <;> simp [same, sameAll_iff as]
  | loop as, b => by cases b <;> simp [same, sameAll_iff as]
  | check _, b => by cases b <;> simp [same]
  | erroneous, b => by cases b <;> simp [same]

theorem sameAll_iff : (as bs : List Statement) → (sameAll as bs = true ↔ as = bs)
  | [], bs => by cases bs <;> simp [sameAll]
  | a :: as, bs => by cases bs <;> simp [sameAll, same_iff a, sameAll_iff as]

end

instance : DecidableEq Statement := fun a b => decidable_of_iff _ (same_iff a b)

end Statement

/-- A whole program. -/
structure Program where
  statements : List Statement
deriving DecidableEq

namespace Program

/-- The number of statements, nested ones included. -/
def statementCount (p : Program) : Nat := Statement.sizeOfAll p.statements

def listing (p : Program) : List ListingLine := (Statement.listingOfAll 0 0 p.statements).1

/-- The text of the program, three spaces per level. -/
def render (p : Program) : String :=
  joinLines (p.listing.map fun line => repeated line.depth "   " ++ line.text)

end Program

end StepCalc
