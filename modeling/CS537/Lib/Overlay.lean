import Mathlib.Data.Nat.Notation

/-!
# Writing blocks into a map

`overlay g a l` is the map `g` with the list `l` written from the address `a` on. It says what a
`memmove` does to a memory, and what a part of a memory is supposed to hold.
-/

/-- `g` with the elements of `l` at `a`, `a + 1`, …. -/
def overlay {α : Type*} (g : ℕ → α) (a : ℕ) (l : List α) : ℕ → α := fun x ↦
  if a ≤ x then (l[x - a]?).getD (g x) else g x

namespace overlay

variable {α : Type*} {g h : ℕ → α} {a x : ℕ} {l l' : List α}

theorem nil (g : ℕ → α) (a : ℕ) : overlay g a [] = g := by
  funext x
  simp [overlay]

theorem of_lt (hx : x < a) : overlay g a l x = g x := if_neg (Nat.not_le.mpr hx)

theorem of_le (hx : a + l.length ≤ x) : overlay g a l x = g x := by
  rw [overlay, if_pos (by omega), List.getElem?_eq_none (by omega)]
  rfl

/-- Outside the block. -/
theorem of_not (hx : ¬(a ≤ x ∧ x < a + l.length)) : overlay g a l x = g x := by
  by_cases hlt : x < a
  · exact of_lt hlt
  · exact of_le (by omega)

theorem of_getElem? {i : ℕ} {b : α} (hi : l[i]? = some b) : overlay g a l (a + i) = b := by
  rw [overlay, if_pos (Nat.le_add_right a i), Nat.add_sub_cancel_left, hi]
  rfl

theorem congr (hgh : g x = h x) : overlay g a l x = overlay h a l x := by
  rw [overlay, overlay, hgh]

/-- One block after the other. -/
theorem append (g : ℕ → α) (a : ℕ) (l l' : List α) :
    overlay (overlay g a l) (a + l.length) l' = overlay g a (l ++ l') := by
  funext x
  by_cases hlt : x < a + l.length
  · rw [of_lt hlt]
    by_cases hle : a ≤ x
    · rw [overlay, overlay, if_pos hle, if_pos hle, List.getElem?_append_left (by omega)]
    · rw [of_lt (by omega), of_lt (by omega)]
  · have hle : a ≤ x := by omega
    have hnone : l[x - a]? = none := List.getElem?_eq_none (by omega)
    rw [overlay, overlay, overlay, if_pos (by omega), if_pos hle, if_pos hle,
      List.getElem?_append_right (by omega), hnone, Nat.sub_add_eq]
    rfl

end overlay
