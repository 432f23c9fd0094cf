import Mathlib.Data.List.Induction
import Mathlib.Data.List.TakeWhile

/-!
# Words

The words of a list are its maximal parts without a separator, in order.
-/

namespace Words

variable {α : Type*} {sep : α → Bool} {l l' t : List α} {a x : α}

/-- The maximal parts that have no separator and are not empty. -/
def words (sep : α → Bool) (l : List α) : List (List α) := (l.splitOnP sep).filter (!·.isEmpty)

@[simp] theorem words_nil : words sep [] = [] := rfl

theorem words_append_cons (ha : sep a) :
    words sep (l ++ a :: l') = words sep l ++ words sep l' := by
  rw [words, List.splitOnP_append_cons l l' ha, List.filter_append, words, words]

theorem words_cons_sep (ha : sep a) : words sep (a :: l) = words sep l := by
  have happ : words sep ([] ++ a :: l) = words sep [] ++ words sep l := words_append_cons ha
  rwa [List.nil_append, words_nil, List.nil_append] at happ

theorem words_token (ht : ∀ x ∈ t, sep x = false) (hne : t ≠ []) : words sep t = [t] := by
  rw [words, List.splitOnP_eq_singleton ht, List.filter_cons_of_pos, List.filter_nil]
  rwa [Bool.not_eq_true', List.isEmpty_eq_false_iff]

/-- The first word ends at a separator. -/
theorem words_token_cons (ht : ∀ x ∈ t, sep x = false) (hne : t ≠ []) (ha : sep a) :
    words sep (t ++ a :: l) = t :: words sep l := by
  rw [words_append_cons ha, words_token ht hne, List.singleton_append]

/-- Separators in front do not matter, and neither do separators behind. -/
theorem words_append_left (ht : ∀ x ∈ t, sep x) : words sep (t ++ l) = words sep l := by
  induction t with
  | nil => rfl
  | cons a t ih =>
    obtain ⟨ha, ht⟩ := List.forall_mem_cons.mp ht
    rw [List.cons_append, words_cons_sep ha, ih ht]

theorem words_append_right (ht : ∀ x ∈ t, sep x) : words sep (l ++ t) = words sep l := by
  cases t with
  | nil => rw [List.append_nil]
  | cons a t =>
    obtain ⟨ha, ht⟩ := List.forall_mem_cons.mp ht
    have hnil := words_append_left (l := []) ht
    rw [List.append_nil] at hnil
    rw [words_append_cons ha, hnil, words_nil, List.append_nil]

theorem of_dropWhile_eq_cons {p : α → Bool} (h : l.dropWhile p = a :: l') : p a = false := by
  have hhead := List.head_dropWhile_not p (w := by rw [h]; exact List.cons_ne_nil a l')
  simpa only [h, List.head_cons] using hhead

/-- The words from the front: what stands between the first separators and the next one. -/
theorem words_eq (sep : α → Bool) (l : List α) :
    words sep l = match (l.dropWhile sep).takeWhile (!sep ·) with
      | [] => []
      | x :: t => (x :: t) :: words sep ((l.dropWhile sep).dropWhile (!sep ·)).tail := by
  have hdrop : words sep l = words sep (l.dropWhile sep) := calc
    words sep l = words sep (l.takeWhile sep ++ l.dropWhile sep) := by
      rw [List.takeWhile_append_dropWhile]
    _ = words sep (l.dropWhile sep) := words_append_left fun x hx ↦ List.mem_takeWhile_imp hx
  rw [hdrop]
  generalize hrest : l.dropWhile sep = r
  cases r with
  | nil => rfl
  | cons a r =>
    have ha : sep a = false := of_dropWhile_eq_cons hrest
    have htoken : ∀ x ∈ (a :: r).takeWhile (!sep ·), sep x = false := fun x hx ↦ by
      simpa using List.mem_takeWhile_imp hx
    have hcons : (a :: r).takeWhile (!sep ·) = a :: r.takeWhile (!sep ·) :=
      List.takeWhile_cons_of_pos (by rw [ha]; rfl)
    have hsplit : words sep (a :: r) = words sep ((a :: r).takeWhile (!sep ·)
        ++ (a :: r).dropWhile (!sep ·)) := by
      rw [List.takeWhile_append_dropWhile]
    rw [hsplit]
    rw [hcons] at htoken ⊢
    simp only
    cases hback : (a :: r).dropWhile (!sep ·) with
    | nil =>
      rw [List.append_nil]
      exact words_token htoken (List.cons_ne_nil _ _)
    | cons b r' =>
      have hb : (!sep b) = false := of_dropWhile_eq_cons (p := (!sep ·)) hback
      exact words_token_cons htoken (List.cons_ne_nil _ _) (by simpa using hb)

/-- What stands behind the last separator. -/
theorem exists_tail (sep : α → Bool) (l : List α) : ∃ t, (∀ x ∈ t, sep x = false) ∧
    (l = t ∨ ∃ l' a, sep a ∧ l = l' ++ a :: t) := by
  induction l with
  | nil => exact ⟨[], nofun, Or.inl rfl⟩
  | cons b l ih =>
    obtain ⟨t, ht, rfl | ⟨l', a, ha, rfl⟩⟩ := ih
    · by_cases hb : sep b
      · exact ⟨l, ht, Or.inr ⟨[], b, hb, rfl⟩⟩
      · exact ⟨b :: l, List.forall_mem_cons.mpr ⟨Bool.eq_false_iff.mpr hb, ht⟩, Or.inl rfl⟩
    · exact ⟨t, ht, Or.inr ⟨b :: l', a, ha, rfl⟩⟩

/-- One more element that is not a separator belongs to the last word, or it is the last word if
`t` is empty. -/
theorem words_concat (hx : sep x = false) (l : List α) : ∃ init t,
    words sep (l ++ [x]) = init ++ [t ++ [x]] ∧
      words sep l = init ++ if t = [] then [] else [t] := by
  obtain ⟨t, ht, hl⟩ := exists_tail sep l
  have htx : ∀ y ∈ t ++ [x], sep y = false := by
    rw [List.forall_mem_append, List.forall_mem_singleton]
    exact ⟨ht, hx⟩
  have hconcat := words_token htx (List.concat_ne_nil x t)
  have htoken : words sep t = if t = [] then [] else [t] := by
    split_ifs with hnil
    · rw [hnil, words_nil]
    · exact words_token ht hnil
  rcases hl with rfl | ⟨l', a, ha, rfl⟩
  · exact ⟨[], l, hconcat, htoken⟩
  · refine ⟨words sep l', t, ?_, ?_⟩
    · rw [List.append_assoc, List.cons_append, words_append_cons ha, hconcat]
    · rw [words_append_cons ha, htoken]

theorem length_words_le (sep : α → Bool) (l : List α) : (words sep l).length ≤ l.length := by
  induction l using List.reverseRecOn with
  | nil => exact Nat.zero_le _
  | append_singleton l x ih =>
    rw [List.length_append, List.length_singleton]
    by_cases hx : sep x
    · rw [words_append_cons hx, words_nil, List.append_nil]
      exact ih.trans (Nat.le_succ _)
    · obtain ⟨init, t, hconcat, hwords⟩ := words_concat (Bool.eq_false_iff.mpr hx) l
      rw [hwords, List.length_append] at ih
      rw [hconcat, List.length_append, List.length_singleton]
      omega

end Words
