import Mathlib.Data.List.Nodup

/-!
# Sweeps over a table

A loop over the indices of a table whose body at `i` depends on entry `i` only and changes entry
`i` only acts on every entry by itself. What an entry is, is a view of the state: it may gather
fields of several arrays.
-/

namespace Sweep

variable {σ ι β : Type*} {body : σ → ι → σ} {V : ι → σ → β}

/-- Entries the sweep does not visit stay as they are. -/
theorem view_foldl_of_notMem (hother : ∀ s i j, j ≠ i → V j (body s i) = V j s)
    {l : List ι} {j : ι} (hj : j ∉ l) (s : σ) : V j (l.foldl body s) = V j s := by
  induction l generalizing s with
  | nil => rfl
  | cons i l ih =>
    rw [List.mem_cons, not_or] at hj
    rw [List.foldl_cons, ih hj.2, hother s i j hj.1]

/-- An entry the sweep visits once is changed as by its own step. -/
theorem view_foldl (act : ι → β → β) (hself : ∀ s i, V i (body s i) = act i (V i s))
    (hother : ∀ s i j, j ≠ i → V j (body s i) = V j s) {l : List ι} (hl : l.Nodup) {j : ι}
    (hj : j ∈ l) (s : σ) : V j (l.foldl body s) = act j (V j s) := by
  induction l generalizing s with
  | nil => simp at hj
  | cons i l ih =>
    obtain ⟨hi, hl⟩ := List.nodup_cons.mp hl
    rw [List.foldl_cons]
    rcases List.mem_cons.mp hj with rfl | hjl
    · rw [view_foldl_of_notMem hother hi, hself]
    · have hne : j ≠ i := by
        rintro rfl
        exact hi hjl
      rw [ih hl hjl, hother s i j hne]

/-- What the step at an index brings about, and later steps keep, holds after the sweep. -/
theorem foldl_visit {P Q : σ → Prop} {j : ι} (hvisit : ∀ s, Q s → P (body s j))
    (hQ : ∀ s i, i ≠ j → Q s → Q (body s i)) (hP : ∀ s i, P s → P (body s i)) {l : List ι}
    (hj : j ∈ l) {s : σ} (hs : Q s) : P (l.foldl body s) := by
  induction l generalizing s with
  | nil => simp at hj
  | cons i l ih =>
    rw [List.foldl_cons]
    by_cases hi : i = j
    · subst hi
      exact List.foldlRecOn l body (hvisit s hs) fun u hu k _ ↦ hP u k hu
    · exact ih ((List.mem_cons.mp hj).resolve_left (Ne.symm hi)) (hQ s i hi hs)

/-- What no step of the sweep changes, the sweep does not change. -/
theorem foldl_eq {view : σ → β} (h : ∀ s i, view (body s i) = view s) (l : List ι) (s : σ) :
    view (l.foldl body s) = view s := by
  induction l generalizing s with
  | nil => rfl
  | cons i l ih => rw [List.foldl_cons, ih, h]

end Sweep
