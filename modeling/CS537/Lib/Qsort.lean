import Mathlib.Data.List.Perm.Basic
import Mathlib.Data.List.Pairwise
import Mathlib.Order.Lattice
import Mathlib.Data.Int.Order.Basic

/-!
# Sorting with a comparison function

A sorting procedure is given a list and a function that compares two elements by the sign of its
result. It permutes the list, and it has to order it only if the function is a consistent total
preorder on the elements. `forall_sorted_iff` says when this is enough to have the list sorted by a
key.
-/

namespace Qsort

variable {α K : Type*}

/-- The function orders the elements of the list. -/
structure Consistent (cmp : α → α → ℤ) (l : List α) : Prop where
  sign : ∀ x ∈ l, ∀ y ∈ l, 0 < cmp x y ↔ cmp y x < 0
  trans : ∀ x ∈ l, ∀ y ∈ l, ∀ z ∈ l, cmp x y ≤ 0 → cmp y z ≤ 0 → cmp x z ≤ 0

/-- What a caller may expect of the sorting procedure. -/
structure Contract (qsort : (α → α → ℤ) → List α → List α) : Prop where
  perm : ∀ cmp l, (qsort cmp l).Perm l
  ordered : ∀ cmp l, Consistent cmp l → (qsort cmp l).Pairwise fun x y ↦ cmp x y ≤ 0

theorem Consistent.total {cmp : α → α → ℤ} {l : List α} (h : Consistent cmp l) {x y : α}
    (hx : x ∈ l) (hy : y ∈ l) : cmp x y ≤ 0 ∨ cmp y x ≤ 0 := by
  have := h.sign x hx y hy
  omega

/-- The list by merge sort. -/
def order (R : α → α → Prop) [DecidableRel R] (l : List α) : List α :=
  (l.attach.mergeSort fun x y ↦ R x.1 y.1).map Subtype.val

theorem perm_order (R : α → α → Prop) [DecidableRel R] (l : List α) : (order R l).Perm l := by
  have hperm := (List.mergeSort_perm l.attach fun x y ↦ R x.1 y.1).map Subtype.val
  rwa [List.attach_map_subtype_val] at hperm

/-- A relation that is total and transitive among the elements orders the list. -/
theorem pairwise_order {R : α → α → Prop} [DecidableRel R] {l : List α}
    (htrans : ∀ x ∈ l, ∀ y ∈ l, ∀ z ∈ l, R x y → R y z → R x z)
    (htotal : ∀ x ∈ l, ∀ y ∈ l, R x y ∨ R y x) : (order R l).Pairwise R := by
  rw [order, List.pairwise_map]
  refine (List.pairwise_mergeSort (fun x y z ↦ ?_) (fun x y ↦ ?_) l.attach).imp fun h ↦ ?_
  · simpa using htrans x.1 x.2 y.1 y.2 z.1 z.2
  · simpa using htotal x.1 x.2 y.1 y.2
  · simpa using h

/-- Merge sort keeps the contract. -/
theorem contract_order : Contract fun (cmp : α → α → ℤ) l ↦ order (fun x y ↦ cmp x y ≤ 0) l where
  perm cmp l := perm_order (fun x y ↦ cmp x y ≤ 0) l
  ordered _ _ h := pairwise_order h.trans fun _ hx _ hy ↦ h.total hx hy

/-- Of two elements one stands before the other. -/
theorem rel_or_rel {R : α → α → Prop} {l : List α} (h : l.Pairwise R) {x y : α} (hx : x ∈ l)
    (hy : y ∈ l) (hne : x ≠ y) : R x y ∨ R y x := by
  have hsymm : Std.Symm fun a b ↦ R a b ∨ R b a := ⟨fun _ _ ↦ Or.symm⟩
  have hor : l.Pairwise fun a b ↦ R a b ∨ R b a := h.imp Or.inl
  exact hor.forall hx hy hne

variable [LinearOrder K]

/-- A permutation that the contract allows and that has the keys in the wrong order wherever the
comparison function does not forbid it. -/
theorem exists_worst (cmp : α → α → ℤ) (key : α → K) (l : List α) :
    ∃ l' : List α, l'.Perm l ∧ (Consistent cmp l → l'.Pairwise fun x y ↦ cmp x y ≤ 0) ∧
      l'.Pairwise fun x y ↦ (Consistent cmp l ∧ cmp x y < 0) ∨ key y ≤ key x := by
  classical
  by_cases hcons : Consistent cmp l
  · -- by the function, and elements that it takes for equal by falling key
    let R (x y : α) : Prop := cmp x y < 0 ∨ (cmp x y ≤ 0 ∧ key y ≤ key x)
    have hord : (order R l).Pairwise R := by
      refine pairwise_order (fun x hx y hy z hz hxy hyz ↦ ?_) fun x hx y hy ↦ ?_
      · have h1 := hcons.trans x hx y hy z hz
        have h2 := hcons.trans z hz x hx y hy
        have h3 := hcons.trans y hy z hz x hx
        have h4 := hcons.sign z hz x hx
        have h5 := hcons.sign y hy x hx
        have h6 := hcons.sign z hz y hy
        rcases hxy with hxy | ⟨hxy, hkey⟩
        · exact .inl (by omega)
        · rcases hyz with hyz | ⟨hyz, hkey'⟩
          · exact .inl (by omega)
          · exact .inr ⟨by omega, hkey'.trans hkey⟩
      · have h1 := hcons.sign x hx y hy
        have h2 := hcons.sign y hy x hx
        rcases le_total (key x) (key y) with hkey | hkey
        · by_cases hlt : cmp x y < 0
          · exact .inl (.inl hlt)
          · exact .inr (.inr ⟨by omega, hkey⟩)
        · by_cases hlt : cmp y x < 0
          · exact .inr (.inl hlt)
          · exact .inl (.inr ⟨by omega, hkey⟩)
    refine ⟨_, perm_order R l, fun _ ↦ hord.imp fun h ↦ ?_, hord.imp fun h ↦ ?_⟩
    · rcases h with h | h
      · exact h.le
      · exact h.1
    · rcases h with h | h
      · exact .inl ⟨hcons, h⟩
      · exact .inr h.2
  · have hord : (order (fun x y ↦ key y ≤ key x) l).Pairwise fun x y ↦ key y ≤ key x :=
      pairwise_order (fun _ _ _ _ _ _ hxy hyz ↦ hyz.trans hxy) fun _ _ _ _ ↦ le_total _ _
    exact ⟨_, perm_order _ l, fun h ↦ absurd h hcons, hord.imp .inr⟩

/-- **When sorting sorts.** Every procedure that keeps the contract sorts the list by the key, if
and only if the comparison function is consistent and puts a smaller key first, or all keys are
equal. -/
theorem forall_sorted_iff (cmp : α → α → ℤ) (key : α → K) (l : List α) :
    (∀ qsort, Contract qsort → (qsort cmp l).Pairwise fun x y ↦ key x ≤ key y) ↔
      ∀ x ∈ l, ∀ y ∈ l, key x < key y → Consistent cmp l ∧ cmp x y < 0 := by
  constructor
  · intro h x hx y hy hlt
    choose worst hperm hord hbad using fun cmp l ↦ exists_worst cmp key l
    have hsorted := (h worst ⟨hperm, hord⟩).and (hbad cmp l)
    have hne : x ≠ y := by
      rintro rfl
      exact lt_irrefl _ hlt
    have hx' := (hperm cmp l).mem_iff.mpr hx
    have hy' := (hperm cmp l).mem_iff.mpr hy
    rcases rel_or_rel hsorted hx' hy' hne with ⟨-, hless | hle⟩ | ⟨hle, -⟩
    · exact hless
    · exact absurd hle hlt.not_ge
    · exact absurd hle hlt.not_ge
  · intro h qsort hq
    have hmem : ∀ x ∈ qsort cmp l, x ∈ l := fun x hx ↦ (hq.perm cmp l).mem_iff.mp hx
    by_cases hcons : Consistent cmp l
    · refine (hq.ordered cmp l hcons).imp_of_mem fun {x y} hx hy hle ↦ ?_
      by_contra hlt
      have hneg := (h y (hmem y hy) x (hmem x hx) (not_le.mp hlt)).2
      have := hcons.sign x (hmem x hx) y (hmem y hy)
      omega
    · refine List.pairwise_of_forall_mem_list fun x hx y hy ↦ ?_
      by_contra hlt
      exact hcons (h y (hmem y hy) x (hmem x hx) (not_le.mp hlt)).1

end Qsort
