import Mathlib.Algebra.BigOperators.Ring.Finset
import Mathlib.Data.Fintype.BigOperators

/-!
# Intervals tiled by labelled blocks

The half-open interval from `lo` to `hi` is tiled by blocks, each with a label, a base and a
length. The tiling is built downwards: a new block goes right below `lo`. Such a tiling covers the
interval, its blocks are disjoint, and their lengths add up.
-/

open Finset Function

variable {ι : Type*} [Fintype ι]

/-- The blocks `base i`, …, `base i + len i` tile the interval from `lo` to `hi`. -/
structure Tiling (base : ι → Option ℕ) (len : ι → ℕ) (lo hi : ℕ) : Prop where
  fits : ∀ i b, base i = some b → lo ≤ b ∧ b + len i ≤ hi ∧ 0 < len i
  disjoint : ∀ i j b c, i ≠ j → base i = some b → base j = some c → b + len i ≤ c ∨ c + len j ≤ b
  cover : ∀ x, lo ≤ x → x < hi → ∃ i b, base i = some b ∧ b ≤ x ∧ x < b + len i
  total : lo + ∑ i, (if (base i).isSome then len i else 0) = hi

namespace Tiling

variable {base : ι → Option ℕ} {len : ι → ℕ} {lo hi : ℕ}

theorem empty (len : ι → ℕ) (hi : ℕ) : Tiling (fun _ ↦ none) len hi hi :=
  ⟨by simp, by simp, fun x h1 h2 ↦ by omega, by simp⟩

theorem le (h : Tiling base len lo hi) : lo ≤ hi := Nat.le.intro h.total

/-- Only the lengths of the blocks that are there matter. -/
theorem congr_len (h : Tiling base len lo hi) {len' : ι → ℕ}
    (hlen : ∀ i, (base i).isSome → len' i = len i) : Tiling base len' lo hi := by
  have hsome : ∀ i b, base i = some b → len' i = len i := fun i b hb ↦ hlen i (by rw [hb]; rfl)
  refine ⟨fun i b hb ↦ ?_, fun i j b c hij hb hc ↦ ?_, fun x h1 h2 ↦ ?_, ?_⟩
  · rw [hsome i b hb]
    exact h.fits i b hb
  · rw [hsome i b hb, hsome j c hc]
    exact h.disjoint i j b c hij hb hc
  · obtain ⟨i, b, hb, h3, h4⟩ := h.cover x h1 h2
    exact ⟨i, b, hb, h3, by rwa [hsome i b hb]⟩
  · rw [← h.total]
    congr 1
    refine sum_congr rfl fun i _ ↦ ?_
    split
    · exact hlen i ‹_›
    · rfl

/-- A new block right below the others. -/
theorem push [DecidableEq ι] (h : Tiling base len lo hi) {k : ι} (hk : base k = none) {n : ℕ}
    (hpos : 0 < n) (hn : n ≤ lo) :
    Tiling (update base k (some (lo - n))) (update len k n) (lo - n) hi := by
  have hne : ∀ i b, base i = some b → i ≠ k := by
    rintro i b hb rfl
    rw [hk] at hb
    cases hb
  refine ⟨fun i b hb ↦ ?_, fun i j b c hij hb hc ↦ ?_, fun x h1 h2 ↦ ?_, ?_⟩
  · by_cases hi : i = k
    · subst hi
      rw [update_self, Option.some.injEq] at hb
      have := h.le
      rw [update_self]
      omega
    · rw [update_of_ne hi] at hb ⊢
      obtain ⟨h1, h2⟩ := h.fits i b hb
      exact ⟨by omega, h2⟩
  · -- every other block lies at `lo` or above
    by_cases hi : i = k
    · subst hi
      rw [update_self, Option.some.injEq] at hb
      rw [update_of_ne hij.symm] at hc
      have := (h.fits j c hc).1
      rw [update_self]
      omega
    · rw [update_of_ne hi] at hb ⊢
      by_cases hj : j = k
      · subst hj
        rw [update_self, Option.some.injEq] at hc
        have := (h.fits i b hb).1
        rw [update_self]
        omega
      · rw [update_of_ne hj] at hc ⊢
        exact h.disjoint i j b c hij hb hc
  · by_cases hx : lo ≤ x
    · obtain ⟨i, b, hb, h3, h4⟩ := h.cover x hx h2
      refine ⟨i, b, ?_, h3, ?_⟩
      · rwa [update_of_ne (hne i b hb)]
      · rwa [update_of_ne (hne i b hb)]
    · refine ⟨k, lo - n, update_self .., h1, ?_⟩
      rw [update_self]
      omega
  · have hrest : ∑ i ∈ univ.erase k, (if (update base k (some (lo - n)) i).isSome then
        update len k n i else 0) = ∑ i ∈ univ.erase k, (if (base i).isSome then len i else 0) := by
      refine sum_congr rfl fun i hi ↦ ?_
      rw [update_of_ne (ne_of_mem_erase hi), update_of_ne (ne_of_mem_erase hi)]
    have hold : ∑ i, (if (base i).isSome then len i else 0)
        = ∑ i ∈ univ.erase k, (if (base i).isSome then len i else 0) := by
      rw [← add_sum_erase univ _ (mem_univ k), hk]
      simp
    have htotal := h.total
    rw [← add_sum_erase univ _ (mem_univ k), hrest, ← hold, update_self, update_self]
    simp only [Option.isSome_some, if_true]
    omega

end Tiling
