import Mathlib.Algebra.BigOperators.Ring.Finset
import Mathlib.Algebra.Order.BigOperators.Group.Finset
import Mathlib.Tactic.Abel

/-!
# Sums over a table, and who holds what

Two accounting devices for systems built from a table of records.

* A *tally* adds up a weight over all entries. Overwriting one entry changes it by the difference
  of two weights; the statement is kept subtraction-free so that it serves `ℕ` and `ℤ` alike.
* A partial map `m : ι → Option ρ` *holds* a resource `r` as many times as there are indices in a
  given finite set sent to `r`. Conservation arguments compare such counts one resource at a time.
-/

open Finset Function

/-! ## Tallies -/

namespace Tally

variable {ι α β M : Type*} [Fintype ι] [AddCommMonoid M]

/-- The total weight of the entries of `f`. -/
def tally (w : α → M) (f : ι → α) : M := ∑ i, w (f i)

theorem tally_congr {w : α → M} {w' : β → M} {f : ι → α} {g : ι → β} (h : ∀ i, w (f i) = w' (g i)) :
    tally w f = tally w' g := sum_congr rfl fun i _ ↦ h i

theorem tally_update [DecidableEq ι] (w : α → M) (f : ι → α) (j : ι) (v : α) :
    tally w (update f j v) + w (f j) = tally w f + w v := by
  rw [tally, tally, ← add_sum_erase univ (fun i ↦ w (update f j v i)) (mem_univ j),
    ← add_sum_erase univ (fun i ↦ w (f i)) (mem_univ j), update_self]
  have hrest : ∑ i ∈ univ.erase j, w (update f j v i) = ∑ i ∈ univ.erase j, w (f i) :=
    sum_congr rfl fun i hi ↦ by rw [update_of_ne (ne_of_mem_erase hi)]
  rw [hrest]
  abel

theorem tally_eq_zero {w : α → M} {f : ι → α} (h : ∀ i, w (f i) = 0) : tally w f = 0 :=
  Finset.sum_eq_zero fun i _ ↦ h i

theorem le_tally (w : α → ℕ) (f : ι → α) (i : ι) : w (f i) ≤ tally w f :=
  single_le_sum_of_canonicallyOrdered (f := fun j ↦ w (f j)) (mem_univ i)

theorem add_le_tally [DecidableEq ι] (w : α → ℕ) (f : ι → α) {i j : ι} (h : i ≠ j) :
    w (f i) + w (f j) ≤ tally w f := by
  rw [← sum_pair (f := fun k ↦ w (f k)) h]
  exact sum_le_sum_of_subset (subset_univ _)

/-- Counting the entries with a property is a tally of indicators. -/
theorem card_filter_eq_tally (p : α → Prop) [DecidablePred p] (f : ι → α) :
    (univ.filter fun i ↦ p (f i)).card = tally (fun a ↦ if p a then 1 else 0) f := by
  rw [card_filter, tally]

theorem cast_card_filter_eq_tally (p : α → Prop) [DecidablePred p] (f : ι → α) :
    ((univ.filter fun i ↦ p (f i)).card : ℤ) = tally (fun a ↦ if p a then 1 else 0) f := by
  rw [card_filter, tally]
  push_cast
  rfl

end Tally

/-! ## Holding a resource -/

namespace Holding

variable {ι ρ : Type*} [DecidableEq ρ]

/-- How many indices of `S` the map sends to the resource `r`. -/
def held (S : Finset ι) (m : ι → Option ρ) (r : ρ) : ℕ := (S.filter fun i ↦ m i = some r).card

/-- One if the cell contains the resource, else zero. -/
def cell (x : Option ρ) (r : ρ) : ℕ := if x = some r then 1 else 0

@[simp] theorem cell_none (r : ρ) : cell (none : Option ρ) r = 0 := rfl

theorem cell_some (x r : ρ) : cell (some x) r = if x = r then 1 else 0 := by
  simp [cell]

theorem held_eq_sum (S : Finset ι) (m : ι → Option ρ) (r : ρ) :
    held S m r = ∑ i ∈ S, cell (m i) r := by
  rw [held, card_filter]
  rfl

@[simp] theorem held_empty (m : ι → Option ρ) (r : ρ) : held ∅ m r = 0 := rfl

theorem held_congr {S : Finset ι} {m m' : ι → Option ρ} (h : ∀ i ∈ S, m i = m' i) (r : ρ) :
    held S m r = held S m' r := by
  rw [held_eq_sum, held_eq_sum]
  exact sum_congr rfl fun i hi ↦ by rw [h i hi]

theorem held_eq_zero_of_none {S : Finset ι} {m : ι → Option ρ} (h : ∀ i ∈ S, m i = none) (r : ρ) :
    held S m r = 0 := by
  rw [held_eq_sum]
  exact sum_eq_zero fun i hi ↦ by rw [h i hi, cell_none]

theorem held_pos_iff {S : Finset ι} {m : ι → Option ρ} {r : ρ} :
    0 < held S m r ↔ ∃ i ∈ S, m i = some r := by
  simp [held, card_pos, Finset.Nonempty]

theorem held_mono {S T : Finset ι} (h : S ⊆ T) (m : ι → Option ρ) (r : ρ) :
    held S m r ≤ held T m r := card_le_card (filter_subset_filter _ h)

variable [DecidableEq ι]

theorem held_insert {S : Finset ι} {i : ι} (hi : i ∉ S) (m : ι → Option ρ) (r : ρ) :
    held (insert i S) m r = cell (m i) r + held S m r := by
  rw [held_eq_sum, sum_insert hi, ← held_eq_sum]

theorem held_union {S T : Finset ι} (h : Disjoint S T) (m : ι → Option ρ) (r : ρ) :
    held (S ∪ T) m r = held S m r + held T m r := by
  rw [held_eq_sum, sum_union h, ← held_eq_sum, ← held_eq_sum]

theorem held_update {S : Finset ι} {i : ι} (hi : i ∈ S) (m : ι → Option ρ) (x : Option ρ) (r : ρ) :
    held S (update m i x) r + cell (m i) r = held S m r + cell x r := by
  have hsplit : ∀ m' : ι → Option ρ, held S m' r = cell (m' i) r + held (S.erase i) m' r := by
    intro m'
    rw [← held_insert (notMem_erase i S), insert_erase hi]
  have hrest : held (S.erase i) (update m i x) r = held (S.erase i) m r :=
    held_congr (fun j hj ↦ update_of_ne (ne_of_mem_erase hj) _ _) r
  rw [hsplit (update m i x), hsplit m, hrest, update_self]
  omega

end Holding
