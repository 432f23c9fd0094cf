import Mathlib.Algebra.Order.Ring.Int

/-!
# Arithmetic in 32 bits

The value of a signed 32-bit integer after arithmetic that may wrap.
-/

namespace Wrapping

/-- `n` reduced to a signed 32-bit integer. -/
def toInt32 (n : ℤ) : ℤ := n.bmod (2 ^ 32)

theorem toInt32_lt (n : ℤ) : toInt32 n < 2 ^ 31 := by
  have h : n.bmod (2 ^ 32) < ((2 ^ 32 : ℕ) + 1) / 2 := Int.bmod_lt (by decide)
  rw [toInt32]
  omega

/-- Values in range do not change. -/
theorem toInt32_of_range {n : ℤ} (h1 : -2 ^ 31 ≤ n) (h2 : n < 2 ^ 31) : toInt32 n = n :=
  Int.bmod_eq_of_le (by omega) (by omega)

/-- From below `2 ^ 31`, adding one does not wrap exactly if the result is not less. -/
theorem toInt32_succ {n : ℤ} (h1 : -2 ^ 31 ≤ n) (hle : n ≤ toInt32 (n + 1)) :
    toInt32 (n + 1) = n + 1 := by
  refine toInt32_of_range (by omega) ?_
  have h2 := toInt32_lt (n + 1)
  by_contra hge
  obtain rfl : n = 2 ^ 31 - 1 := by omega
  exact absurd hle (by decide)

end Wrapping
