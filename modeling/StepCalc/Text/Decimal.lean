/-!
# Decimal integers of 64 bits

`readInt64?` accepts one optional sign, then one or more decimal digits, when the number lies in
the signed 64-bit range; it accepts nothing else. `fit?` is the range check itself, which the
arithmetic of the machine shares.
-/

namespace StepCalc

/-- `n` as a 64-bit integer, if it lies in the range `-2 ^ 63, …, 2 ^ 63 - 1`. -/
def fit? (n : Int) : Option Int64 :=
  if -9223372036854775808 ≤ n ∧ n ≤ 9223372036854775807 then some (Int64.ofInt n) else none

theorem toInt_of_fit? {n : Int} {v : Int64} (h : fit? n = some v) : v.toInt = n := by
  unfold fit? at h
  split at h
  case isTrue hn =>
    cases h
    exact Int64.toInt_ofInt_of_le (by omega) (by omega)
  case isFalse => cases h

/-- The value of a run of digits, most significant digit first. -/
def digitsValue (digits : List Char) : Nat :=
  digits.foldl (fun n d => 10 * n + (d.toNat - '0'.toNat)) 0

/-- The natural number that a non-empty text of decimal digits denotes. -/
def readDigits? (text : List Char) : Option Nat :=
  if text ≠ [] ∧ text.all Char.isDigit then some (digitsValue text) else none

/-- The integer that an optionally signed text of decimal digits denotes. -/
def readInt? : List Char → Option Int
  | '+' :: digits => (readDigits? digits).map Int.ofNat
  | '-' :: digits => (readDigits? digits).map fun n => -Int.ofNat n
  | digits => (readDigits? digits).map Int.ofNat

/-- The 64-bit integer that `text` denotes. -/
def readInt64? (text : String) : Option Int64 :=
  (readInt? text.toList).bind fit?

/-- The shortest decimal text of `v`, with a minus sign if it is negative. -/
def showInt64 (v : Int64) : String :=
  toString v.toInt

end StepCalc
