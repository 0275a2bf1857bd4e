/-!
# Sums and 64-bit counts
-/

namespace StepCalc

/-- The sum of some counts. -/
def total : List Nat → Nat
  | [] => 0
  | n :: rest => n + total rest

theorem le_total_of_mem {n : Nat} {counts : List Nat} (h : n ∈ counts) : n ≤ total counts := by
  induction counts with
  | nil => cases h
  | cons m rest ih =>
    rcases List.mem_cons.mp h with rfl | h
    · exact Nat.le_add_right n (total rest)
    · exact Nat.le_trans (ih h) (Nat.le_add_left (total rest) m)

theorem total_append (counts others : List Nat) :
    total (counts ++ others) = total counts + total others := by
  induction counts with
  | nil => exact (Nat.zero_add _).symm
  | cons n rest ih =>
    simp only [List.cons_append, total, ih]
    omega

/-- The largest count that has 64 bits, `2 ^ 64 - 1`. -/
def maxCount : Nat := 18446744073709551615

end StepCalc
