import Mathlib.Data.List.Induction
import Mathlib.Data.Nat.Digits.Defs
import StepCalc.Machine.Evaluation

/-!
# Expressions over the integers

`Expr.exact` evaluates an expression by recursion on it, over the integers without bounds: the left
operand, then the right one, then the operator, up to the first error. A number that is too large or
too small for 64 bits is an error wherever it comes up, and so nothing ever wraps around. Reading a
variable marks it as used, and `Expr.reads` lists the variables that are read.

The evaluator does the same with frames and 64-bit integers (`evaluate_is_exact`). The induction is
on the expression, for all frames that wait for its value (`exists_exact`); what else there is to
know of the evaluator follows from the recursion (`exact_eq`, `evaluate_snd`).
-/

namespace StepCalc

/-! ## Numbers -/

/-- The range of 64-bit integers, from `-2 ^ 63` to `2 ^ 63 - 1`. -/
def InRange (n : Int) : Prop := -9223372036854775808 ≤ n ∧ n ≤ 9223372036854775807

instance (n : Int) : Decidable (InRange n) :=
  inferInstanceAs (Decidable (-9223372036854775808 ≤ n ∧ n ≤ 9223372036854775807))

/-- `n`, or the error that it is out of range. -/
def bounded (n : Int) : Except RuntimeError Int := if InRange n then .ok n else .error .overflow

/-- The number that decimal digits denote, each by its place. -/
def placeValue (digits : List Char) : Nat :=
  Nat.ofDigits 10 (digits.reverse.map fun d => d.toNat - '0'.toNat)

/-- The sign of a text, where one is given, and what comes after it. -/
def signed : List Char → Int × List Char
  | '-' :: rest => (-1, rest)
  | '+' :: rest => (1, rest)
  | rest => (1, rest)

/-- The integer that a text denotes: an optional sign and one or more decimal digits. -/
def integer? (text : List Char) : Option Int :=
  let digits := (signed text).2
  if digits ≠ [] ∧ digits.all Char.isDigit then some ((signed text).1 * placeValue digits) else none

/-- The value of a literal. Of the texts that denote no integer in range, those of digits alone, and
the empty one, are out of range; all others are no integers. -/
def exactLiteral (text : String) : Except RuntimeError Int :=
  match (integer? text.toList).filter fun n => decide (InRange n) with
  | some n => .ok n
  | none => if text.toList.all Char.isDigit then .error .overflow else .error (.nonInteger text)

/-- The value of an operator at two integers. -/
def BinOp.exact (op : BinOp) (a b : Int) : Except RuntimeError Int :=
  match op with
  | .add => bounded (a + b)
  | .sub => bounded (a - b)
  | .mul => bounded (a * b)
  | .div => if b = 0 then .error .divideByZero else bounded (a.tdiv b)
  | .eq => .ok (if a = b then 1 else 0)
  | .ne => .ok (if a ≠ b then 1 else 0)
  | .lt => .ok (if a < b then 1 else 0)
  | .gt => .ok (if a > b then 1 else 0)
  | .le => .ok (if a ≤ b then 1 else 0)
  | .ge => .ok (if a ≥ b then 1 else 0)

namespace Expr

/-- The value of an expression over the integers, or the first error, and the memory afterwards. -/
def exact : Expr → Memory → Except RuntimeError Int × Memory
  | .number text, m => (exactLiteral text, m)
  | .ident name, m =>
    match m.get? name with
    | some value => (.ok value.toInt, m.mark name)
    | none => (.error (.undeclared name), m)
  | .binary op lhs rhs, m =>
    match lhs.exact m with
    | (.error error, m) => (.error error, m)
    | (.ok a, m) =>
      match rhs.exact m with
      | (.error error, m) => (.error error, m)
      | (.ok b, m) => (op.exact a b, m)

/-- The declared variables that are read before the first error, in order. -/
def reads : Expr → Memory → List String
  | .number _, _ => []
  | .ident name, m => if (m.get? name).isSome then [name] else []
  | .binary _ lhs rhs, m =>
    match lhs.exact m with
    | (.error _, _) => lhs.reads m
    | (.ok _, m') => lhs.reads m ++ rhs.reads m'

end Expr

/-- The memory with all of some names marked as used. -/
def Memory.marking (m : Memory) (names : List String) : Memory :=
  m.mapCells (fun c => { c with used := c.used || decide (c.name ∈ names) }) fun _ => rfl

/-! ## Operators and literals -/

theorem placeValue_concat (digits : List Char) (d : Char) :
    placeValue (digits ++ [d]) = 10 * placeValue digits + (d.toNat - '0'.toNat) := by
  unfold placeValue
  rw [List.reverse_concat, List.map_cons, Nat.ofDigits_cons]
  omega

theorem digitsValue_eq_placeValue (digits : List Char) :
    digitsValue digits = placeValue digits := by
  induction digits using List.reverseRecOn with
  | nil => rfl
  | append_singleton digits d ih =>
    rw [placeValue_concat, ← ih]
    unfold digitsValue
    rw [List.foldl_append]
    rfl

/-- Digits after a sign denote the integer that is read from them. -/
theorem map_readDigits? (sign : Int) (digits : List Char) :
    (readDigits? digits).map (fun n => sign * Int.ofNat n) =
      if digits ≠ [] ∧ digits.all Char.isDigit then some (sign * placeValue digits) else none := by
  unfold readDigits?
  split
  · rw [Option.map_some, digitsValue_eq_placeValue]
    rfl
  · rfl

theorem integer?_eq_readInt? (text : List Char) : integer? text = readInt? text := by
  have hdigits : integer? text =
      (readDigits? (signed text).2).map fun n => (signed text).1 * Int.ofNat n :=
    (map_readDigits? (signed text).1 (signed text).2).symm
  rw [hdigits]
  fun_cases signed text with
  | case1 digits =>
    rw [readInt?]
    simp only [Int.neg_mul, Int.one_mul]
  | case2 digits =>
    rw [readInt?]
    simp only [Int.one_mul]
  | case3 text hminus hplus =>
    rw [readInt?.eq_3 text hplus hminus]
    simp only [Int.one_mul]

theorem fit?_of_inRange {n : Int} (h : InRange n) : fit? n = some (Int64.ofInt n) := if_pos h

theorem fit?_of_not_inRange {n : Int} (h : ¬ InRange n) : fit? n = none := if_neg h

theorem toInt_checked (n : Int) : (checked n).map Int64.toInt = bounded n := by
  unfold checked bounded
  by_cases h : InRange n
  · rw [if_pos h, fit?_of_inRange h]
    exact congrArg Except.ok (toInt_of_fit? (fit?_of_inRange h))
  · rw [if_neg h, fit?_of_not_inRange h]
    rfl

theorem toInt_indicator (p : Prop) [Decidable p] : (indicator p).toInt = if p then 1 else 0 := by
  unfold indicator
  split <;> rfl

theorem BinOp.toInt_apply (op : BinOp) (a b : Int64) :
    (op.apply a b).map Int64.toInt = op.exact a.toInt b.toInt := by
  cases op with
  | add | sub | mul => exact toInt_checked _
  | div =>
    have hzero : b.toInt = 0 ↔ b = 0 := Int64.toInt_inj (y := 0)
    simp only [apply, exact, hzero]
    split
    · rfl
    · exact toInt_checked _
  | eq | ne | lt | gt | le | ge =>
    simp only [apply, exact, Except.map, toInt_indicator, gt_iff_lt, ge_iff_le, ne_eq,
      Int64.lt_iff_toInt_lt, Int64.le_iff_toInt_le, Int64.toInt_inj]

theorem toInt_literalValue (text : String) :
    (literalValue text).map Int64.toInt = exactLiteral text := by
  unfold literalValue exactLiteral readInt64?
  rw [integer?_eq_readInt?]
  cases readInt? text.toList with
  | none =>
    simp only [Option.bind_none, Option.filter_none]
    split <;> rfl
  | some n =>
    rw [Option.bind_some, Option.filter_some]
    by_cases h : InRange n
    · rw [if_pos (decide_eq_true h), fit?_of_inRange h]
      exact congrArg Except.ok (toInt_of_fit? (fit?_of_inRange h))
    · have hout : ¬ decide (InRange n) = true := by simpa using h
      rw [if_neg hout, fit?_of_not_inRange h]
      simp only
      split <;> rfl

/-! ## Memory -/

namespace Memory

theorem marking_nil (m : Memory) : m.marking [] = m :=
  Memory.ext (by simp [marking, mapCells])

theorem marking_append (m : Memory) (names names' : List String) :
    m.marking (names ++ names') = (m.marking names).marking names' :=
  Memory.ext (by simp [marking, mapCells, Function.comp_def, Bool.or_assoc])

theorem mark_eq_marking (m : Memory) (name : String) : m.mark name = m.marking [name] := by
  refine Memory.ext (List.map_congr_left fun c _ => ?_)
  by_cases h : c.name = name
  · simp [h]
  · simp [h]

/-- A name that is not declared has no cell to mark. -/
theorem mark_of_get?_eq_none {m : Memory} {name : String} (h : m.get? name = none) :
    m.mark name = m := by
  simp only [get?, Option.map_eq_none_iff, List.find?_eq_none, beq_iff_eq] at h
  refine Memory.ext ((List.map_congr_left fun c hc => ?_).trans (List.map_id _))
  exact if_neg (h c hc)

end Memory

/-- Evaluation over the integers marks the variables that it reads, and changes nothing else. -/
theorem Expr.exact_snd (e : Expr) (m : Memory) : (e.exact m).2 = m.marking (e.reads m) := by
  induction e generalizing m with
  | number text => exact m.marking_nil.symm
  | ident name =>
    unfold exact reads
    cases m.get? name with
    | some value => exact m.mark_eq_marking name
    | none => exact m.marking_nil.symm
  | binary op lhs rhs ihl ihr =>
    have hleft := ihl m
    unfold exact reads
    match hvalue : lhs.exact m with
    | (.error error, m') =>
      rw [hvalue] at hleft
      exact hleft
    | (.ok a, m') =>
      rw [hvalue] at hleft
      have hright := ihr m'
      simp only
      rw [Memory.marking_append, ← hleft, ← hright]
      match rhs.exact m' with
      | (.error error, m'') => rfl
      | (.ok b, m'') => rfl

/-! ## The evaluator -/

namespace Evaluation

/-- What the evaluator makes of the value of an operand, or of its error. -/
def proceed (frames : List Frame) : Except RuntimeError Int64 × Memory →
    Except RuntimeError Int64 × Memory
  | (.ok value, m) => unwind frames m value
  | (.error error, m) => (.error error, m)

theorem proceed_nil (result : Except RuntimeError Int64 × Memory) : proceed [] result = result := by
  match result with
  | (.ok value, m) => rw [proceed, unwind]
  | (.error error, m) => rfl

/-- Whatever frames wait for the value of an expression, they get the exact one. -/
theorem exists_exact (e : Expr) (frames : List Frame) (m : Memory) :
    ∃ result m', e.exact m = (result.map Int64.toInt, m') ∧
      descend frames m e = proceed frames (result, m') := by
  induction e generalizing frames m with
  | number text =>
    refine ⟨literalValue text, m, ?_, ?_⟩
    · rw [toInt_literalValue, Expr.exact]
    · rw [descend]
      cases literalValue text with
      | ok value => rfl
      | error error => rfl
  | ident name =>
    rw [descend]
    unfold Memory.lookup Expr.exact
    cases hvalue : m.get? name with
    | some value => exact ⟨.ok value, m.mark name, rfl, rfl⟩
    | none =>
      refine ⟨.error (.undeclared name), m, rfl, ?_⟩
      simp only [Memory.mark_of_get?_eq_none hvalue, proceed]
  | binary op lhs rhs ihl ihr =>
    obtain ⟨left, m₁, hleft, hdescend⟩ := ihl (.right op rhs :: frames) m
    rw [descend, hdescend, Expr.exact, hleft]
    cases left with
    | error error => exact ⟨.error error, m₁, rfl, rfl⟩
    | ok a =>
      -- the frame of the operator now waits for the right operand
      obtain ⟨right, m₂, hright, hdescend'⟩ := ihr (.apply op a :: frames) m₁
      rw [proceed, unwind, hdescend', Except.map]
      simp only
      rw [hright]
      cases right with
      | error error => exact ⟨.error error, m₂, rfl, rfl⟩
      | ok b =>
        refine ⟨op.apply a b, m₂, ?_, ?_⟩
        · rw [op.toInt_apply]
          rfl
        · rw [proceed, unwind]
          cases op.apply a b with
          | ok value => rfl
          | error error => rfl

end Evaluation

namespace Expr

theorem exact_eq (e : Expr) (m : Memory) :
    e.exact m = ((e.evaluate m).1.map Int64.toInt, (e.evaluate m).2) := by
  obtain ⟨result, m', hexact, hdescend⟩ := Evaluation.exists_exact e [] m
  rw [Evaluation.proceed_nil] at hdescend
  rw [hexact, evaluate, hdescend]

theorem evaluate_snd (e : Expr) (m : Memory) : (e.evaluate m).2 = m.marking (e.reads m) := by
  rw [← e.exact_snd m, e.exact_eq m]

/-- **Evaluation is exact.** The evaluator ends with the value that an expression has over the
integers, or with the same error, and with the same memory. This is the memory at the start with the
declared variables marked as used that are read before the first error; nothing else changes. -/
theorem evaluate_is_exact (e : Expr) (m : Memory) :
    (e.evaluate m).1.map Int64.toInt = (e.exact m).1 ∧ (e.evaluate m).2 = (e.exact m).2 ∧
      (e.evaluate m).2 = m.marking (e.reads m) := by
  refine ⟨?_, ?_, e.evaluate_snd m⟩
  · rw [e.exact_eq m]
  · rw [e.exact_eq m]

/-- The quotient of the least integer by minus one is out of range, and the variable on the right of
it is not read. -/
example :
    let quotient : Expr := .binary .div (.number "-9223372036854775808") (.number "-1")
    (Expr.binary .add quotient (.ident "x")).exact ⟨[⟨"x", 1, false⟩], by decide⟩ =
      (.error .overflow, ⟨[⟨"x", 1, false⟩], by decide⟩) := by
  rfl

end Expr

end StepCalc
