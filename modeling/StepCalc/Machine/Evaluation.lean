import StepCalc.Machine.Memory
import StepCalc.Program.Expr
import StepCalc.Text.Decimal

/-!
# Evaluation

Expressions denote 64-bit integers. Arithmetic that leaves the range is an error, division
truncates toward zero, and comparisons yield one or zero. Operands are evaluated from left to right,
and the first error is the result. Reading a variable marks it as used, so evaluation also yields a
memory.

The evaluator keeps what is left to do in a list of frames: `descend` walks down to the leftmost
operand, `unwind` applies the frames to a value.
-/

namespace StepCalc

/-- What stops a program. -/
inductive RuntimeError where
  | undeclared (name : String)
  | endOfInput
  | nonNumeric (word : String)
  | divideByZero
  | overflow
  | nonInteger (text : String)
  | erroneousTree
  | stepLimit
deriving DecidableEq, Repr

/-- The text of a runtime error, as the program's output shows it. -/
def RuntimeError.message : RuntimeError → String
  | .undeclared name => s!"variable {name} use before declare"
  | .endOfInput => "unexpected end of input"
  | .nonNumeric _ => "non-numeric input"
  | .divideByZero => "divide by zero"
  | .overflow => "integer overflow"
  | .nonInteger text => s!"non-integer literal {text}"
  | .erroneousTree => "cannot interpret erroneous tree"
  | .stepLimit => "step limit exceeded"

/-! ## Operators and literals -/

/-- `n`, if it is in range. -/
def checked (n : Int) : Except RuntimeError Int64 :=
  match fit? n with
  | some v => .ok v
  | none => .error .overflow

/-- One for true and zero for false. -/
def indicator (p : Prop) [Decidable p] : Int64 := if p then 1 else 0

/-- The value of an operator at two integers. -/
def BinOp.apply (op : BinOp) (lhs rhs : Int64) : Except RuntimeError Int64 :=
  match op with
  | .add => checked (lhs.toInt + rhs.toInt)
  | .sub => checked (lhs.toInt - rhs.toInt)
  | .mul => checked (lhs.toInt * rhs.toInt)
  | .div => if rhs = 0 then .error .divideByZero else checked (lhs.toInt.tdiv rhs.toInt)
  | .eq => .ok (indicator (lhs = rhs))
  | .ne => .ok (indicator (lhs ≠ rhs))
  | .lt => .ok (indicator (lhs < rhs))
  | .gt => .ok (indicator (rhs < lhs))
  | .le => .ok (indicator (lhs ≤ rhs))
  | .ge => .ok (indicator (rhs ≤ lhs))

/-- The value of a literal. Digits alone that give no value are too large, or there are none. -/
def literalValue (text : String) : Except RuntimeError Int64 :=
  match readInt64? text with
  | some v => .ok v
  | none => if text.toList.all Char.isDigit then .error .overflow else .error (.nonInteger text)

/-! ## The evaluator -/

namespace Evaluation

/-- What is left to do with a value. -/
inductive Frame where
  /-- The value is the left operand; the right one is next. -/
  | right (op : BinOp) (rhs : Expr)
  /-- The value is the right operand. -/
  | apply (op : BinOp) (lhs : Int64)

/-- The number of operators and operands. -/
def size : Expr → Nat
  | .binary _ lhs rhs => 1 + size lhs + size rhs
  | _ => 1

/-- A bound on the moves that frames can cause. -/
def cost : List Frame → Nat
  | [] => 0
  | .right _ rhs :: rest => 2 * size rhs + 1 + cost rest
  | .apply _ _ :: rest => 1 + cost rest

mutual

/-- Evaluates an expression, then the frames. -/
def descend (frames : List Frame) (m : Memory) (e : Expr) : Except RuntimeError Int64 × Memory :=
  match e with
  | .binary op lhs rhs => descend (.right op rhs :: frames) m lhs
  | .number text =>
    match literalValue text with
    | .ok value => unwind frames m value
    | .error error => (.error error, m)
  | .ident name =>
    match m.lookup name with
    | (some value, m) => unwind frames m value
    | (none, m) => (.error (.undeclared name), m)
termination_by 2 * size e + cost frames
decreasing_by
  all_goals simp only [size, cost]; omega

/-- Applies the frames to a value. -/
def unwind (frames : List Frame) (m : Memory) (value : Int64) :
    Except RuntimeError Int64 × Memory :=
  match frames with
  | [] => (.ok value, m)
  | .right op rhs :: frames => descend (.apply op value :: frames) m rhs
  | .apply op lhs :: frames =>
    match op.apply lhs value with
    | .ok value => unwind frames m value
    | .error error => (.error error, m)
termination_by 1 + cost frames
decreasing_by
  all_goals simp only [cost]; omega

end

end Evaluation

/-- The value of an expression, or the first error, and the memory afterwards. -/
def Expr.evaluate (e : Expr) (m : Memory) : Except RuntimeError Int64 × Memory :=
  Evaluation.descend [] m e

end StepCalc
