import Mathlib.Data.Nat.Digits.Lemmas

/-!
# Strings of bytes

The texts that `sprintf` puts together.
-/

namespace Strings

def ascii (s : String) : List UInt8 := s.toList.map fun c ↦ c.toNat.toUInt8

/-- A number in base 10. -/
def decimal (n : ℕ) : List UInt8 :=
  if n = 0 then ascii "0" else (Nat.digits 10 n).reverse.map fun d ↦ (d + 0x30).toUInt8

theorem length_decimal_le {n k : ℕ} (h : n < 10 ^ (k + 1)) : (decimal n).length ≤ k + 1 := by
  rw [decimal]
  split_ifs
  · exact Nat.succ_le_succ (Nat.zero_le k)
  · rwa [List.length_map, List.length_reverse, Nat.digits_length_le_iff (by decide)]

/-- A signed number. -/
def signed {w : ℕ} (n : BitVec w) : List UInt8 :=
  if n.msb then ascii "-" ++ decimal (-n).toNat else decimal n.toNat

theorem length_signed_le {w k : ℕ} (n : BitVec w) (h : 2 ^ w ≤ 10 ^ (k + 1)) :
    (signed n).length ≤ k + 2 := by
  rw [signed]
  split_ifs
  · have hlen := length_decimal_le ((-n).isLt.trans_le h)
    have hsign : (ascii "-").length = 1 := rfl
    rw [List.length_append]
    omega
  · exact (length_decimal_le (n.isLt.trans_le h)).trans (Nat.le_succ _)

end Strings
