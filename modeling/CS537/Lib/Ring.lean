import Mathlib.Data.Int.ModEq
import Mathlib.Data.List.Range
import Mathlib.Logic.Function.Basic

/-!
# Ring buffers

An array whose indices wrap at `n` holds a queue: `len` entries from the read index on. Writing
behind them appends to the queue, as long as the queue is shorter than the array, and moving the
read index on removes its head.
-/

namespace Ring

open Function

variable {α : Type*} {f : ℤ → α} {n r j k : ℤ} {len : ℕ}

/-- The `len` entries of the array from the index `r` on. -/
def contents (f : ℤ → α) (n r : ℤ) (len : ℕ) : List α :=
  (List.range len).map fun k : ℕ ↦ f ((r + (k : ℤ)) % n)

@[simp] theorem length_contents : (contents f n r len).length = len := by
  simp [contents]

/-- Distances below `n` lead to distinct indices. -/
theorem slot_injective (hj : 0 ≤ j) (hj' : j < n) (hk : 0 ≤ k) (hk' : k < n)
    (h : (r + j) % n = (r + k) % n) : j = k := by
  have hmod : j ≡ k [ZMOD n] := Int.ModEq.add_left_cancel' r h
  rwa [Int.ModEq, Int.emod_eq_of_lt hj hj', Int.emod_eq_of_lt hk hk'] at hmod

theorem contents_push (hlen : (len : ℤ) < n) (x : α) :
    contents (update f ((r + len) % n) x) n r (len + 1) = contents f n r len ++ [x] := by
  rw [contents, List.range_succ, List.map_append, List.map_singleton, update_self]
  congr 1
  refine List.map_congr_left fun k hk ↦ ?_
  rw [List.mem_range] at hk
  refine update_of_ne (fun he ↦ ?_) _ _
  have heq := slot_injective (by omega) (by omega) (by omega) hlen he
  omega

theorem contents_pop : contents f n r (len + 1)
    = f (r % n) :: contents f n ((r + 1) % n) len := by
  rw [contents, List.range_succ_eq_map, List.map_cons, List.map_map, Nat.cast_zero, add_zero]
  refine congrArg _ (List.map_congr_left fun k _ ↦ ?_)
  rw [comp_apply, Int.emod_add_emod, Nat.succ_eq_add_one, Nat.cast_succ, add_assoc, add_comm 1]

/-- Only the remainder of the read index matters. -/
theorem contents_congr {r' : ℤ} (h : r % n = r' % n) : contents f n r len = contents f n r' len := by
  refine List.map_congr_left fun k _ ↦ ?_
  rw [← Int.emod_add_emod, h, Int.emod_add_emod]

end Ring
