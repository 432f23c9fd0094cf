import Mathlib.Data.List.Nodup
import Mathlib.Data.List.Perm.Basic
import Mathlib.Logic.Function.Basic

/-!
# Linked lists

A doubly linked list is circular and has a head node; it is linked by two maps `next` and `prev`
from nodes to nodes. A node is taken out by joining its neighbours, and put in right behind the
head. A loop along one of the maps from the head until it is back there sees the nodes in their
order, or in the reverse of it.

A singly linked list ends where `next` leads nowhere. A node is put in at its front or its end; to
put in a node at the front that is in the list already makes a circle of it.
-/

namespace Dlist

open Function

variable {ν : Type*} {next prev next' prev' : ν → ν} {x y h b : ν} {l l₁ l₂ : List ν}

/-- From `x` along the links through the nodes of the list to `y`. -/
def Seg (next prev : ν → ν) : ν → List ν → ν → Prop
  | x, [], y => next x = y ∧ prev y = x
  | x, a :: l, y => (next x = a ∧ prev a = x) ∧ Seg next prev a l y

/-- The nodes from the head node `h` on. -/
def Linked (next prev : ν → ν) (h : ν) (l : List ν) : Prop :=
  (h :: l).Nodup ∧ Seg next prev h l h

namespace Seg

theorem append_iff :
    Seg next prev x (l₁ ++ b :: l₂) y ↔ Seg next prev x l₁ b ∧ Seg next prev b l₂ y := by
  induction l₁ generalizing x with
  | nil => rfl
  | cons a l₁ ih =>
    rw [List.cons_append, Seg, ih, Seg]
    exact and_assoc.symm

theorem reverse (hs : Seg next prev x l y) : Seg prev next y l.reverse x := by
  induction l generalizing x with
  | nil => exact hs.symm
  | cons a l ih =>
    rw [List.reverse_cons, append_iff]
    exact ⟨ih hs.2, hs.1.symm⟩

/-- Other links do not matter. -/
theorem congr (hs : Seg next prev x l y) (hnext : ∀ a ∈ x :: l, next' a = next a)
    (hprev : ∀ a, a ∈ l ∨ a = y → prev' a = prev a) : Seg next' prev' x l y := by
  induction l generalizing x with
  | nil =>
    rw [Seg, hnext x (List.mem_cons_self ..), hprev y (.inr rfl)]
    exact hs
  | cons a l ih =>
    rw [Seg, hnext x (List.mem_cons_self ..), hprev a (.inl (List.mem_cons_self ..))]
    refine ⟨hs.1, ih hs.2 (fun b hb ↦ hnext b (List.mem_cons_of_mem _ hb)) fun b hb ↦ ?_⟩
    exact hprev b (hb.imp_left (List.mem_cons_of_mem _))

theorem prev_mem (hs : Seg next prev x l y) : prev y ∈ x :: l := by
  induction l generalizing x with
  | nil => exact List.mem_singleton.mpr hs.2
  | cons a l ih => exact List.mem_cons_of_mem _ (ih hs.2)

/-- The last link is turned to another node. -/
theorem turn [DecidableEq ν] (hs : Seg next prev x l b) (hl : (x :: l).Nodup) (hy : y ∉ l) :
    Seg (update next (prev b) y) (update prev y (prev b)) x l y := by
  induction l generalizing x with
  | nil =>
    rw [hs.2]
    exact ⟨update_self .., update_self ..⟩
  | cons a l ih =>
    obtain ⟨⟨hnext, hprev⟩, hs⟩ := hs
    rw [List.nodup_cons] at hl
    rw [List.mem_cons, not_or] at hy
    have hx : x ≠ prev b := by
      rintro rfl
      exact hl.1 hs.prev_mem
    refine ⟨⟨?_, ?_⟩, ih hs hl.2 hy.2⟩
    · rw [update_of_ne hx, hnext]
    · rw [update_of_ne (Ne.symm hy.1), hprev]

end Seg

namespace Linked

theorem nil (h : ν) (hnext : next h = h) (hprev : prev h = h) : Linked next prev h [] :=
  ⟨List.nodup_singleton h, hnext, hprev⟩

theorem reverse (hl : Linked next prev h l) : Linked prev next h l.reverse :=
  ⟨by simpa using hl.1, hl.2.reverse⟩

variable [DecidableEq ν]

/-- A node is put in behind the head. -/
theorem push (hl : Linked next prev h l) (hb : b ∉ h :: l) :
    Linked (update (update next b (next h)) h b) (update (update prev b h) (next h) b) h
      (b :: l) := by
  obtain ⟨hnodup, hseg⟩ := hl
  rw [List.mem_cons, not_or] at hb
  obtain ⟨hbh, hbl⟩ := hb
  rw [List.nodup_cons] at hnodup
  refine ⟨?_, ?_⟩
  · simp only [List.nodup_cons, List.mem_cons, not_or]
    exact ⟨⟨Ne.symm hbh, hnodup.1⟩, hbl, hnodup.2⟩
  · cases l with
    | nil =>
      obtain ⟨hnext, -⟩ := hseg
      simp [Seg, hnext, hbh]
    | cons a l =>
      obtain ⟨⟨hnext, -⟩, hseg⟩ := hseg
      rw [List.mem_cons, not_or] at hbl
      simp only [List.mem_cons, not_or, List.nodup_cons] at hnodup
      obtain ⟨⟨hha, hhl⟩, hal, -⟩ := hnodup
      refine ⟨⟨update_self .., ?_⟩, ⟨?_, ?_⟩, hseg.congr (fun c hc ↦ ?_) fun c hc ↦ ?_⟩
      · rw [hnext, update_of_ne hbl.1, update_self]
      · rw [update_of_ne hbh, update_self, hnext]
      · rw [hnext, update_self]
      · have hch : c ≠ h := by
          rintro rfl
          rcases List.mem_cons.mp hc with rfl | hc
          · exact hha rfl
          · exact hhl hc
        have hcb : c ≠ b := by
          rintro rfl
          rcases List.mem_cons.mp hc with rfl | hc
          · exact hbl.1 rfl
          · exact hbl.2 hc
        rw [update_of_ne hch, update_of_ne hcb]
      · have hca : c ≠ a := by
          rintro rfl
          rcases hc with hc | rfl
          · exact hal hc
          · exact hha rfl
        have hcb : c ≠ b := by
          rintro rfl
          rcases hc with hc | rfl
          · exact hbl.2 hc
          · exact hbh rfl
        rw [hnext, update_of_ne hca, update_of_ne hcb]

/-- The neighbours of a node are joined. -/
theorem unlink (hl : Linked next prev h (l₁ ++ b :: l₂)) :
    Linked (update next (prev b) (next b)) (update prev (next b) (prev b)) h (l₁ ++ l₂) := by
  obtain ⟨hnodup, hseg⟩ := hl
  obtain ⟨hs₁, hs₂⟩ := Seg.append_iff.mp hseg
  rw [← List.cons_append, List.nodup_append] at hnodup
  obtain ⟨hnodup₁, hnodup₂, hdisjoint⟩ := hnodup
  rw [List.nodup_cons] at hnodup₂
  refine ⟨?_, ?_⟩
  · rw [← List.cons_append, List.nodup_append]
    exact ⟨hnodup₁, hnodup₂.2, fun a ha c hc ↦ hdisjoint a ha c (List.mem_cons_of_mem _ hc)⟩
  · cases l₂ with
    | nil =>
      rw [List.append_nil, hs₂.1]
      exact hs₁.turn hnodup₁ (List.nodup_cons.mp hnodup₁).1
    | cons a l₂ =>
      obtain ⟨⟨hnext, -⟩, hs₂⟩ := hs₂
      rw [hnext, Seg.append_iff]
      refine ⟨hs₁.turn hnodup₁ fun ha ↦ ?_, hs₂.congr (fun c hc ↦ ?_) fun c hc ↦ ?_⟩
      · exact hdisjoint a (List.mem_cons_of_mem _ ha) a (by simp) rfl
      · refine update_of_ne ?_ ..
        rintro rfl
        exact hdisjoint _ hs₁.prev_mem _ (List.mem_cons_of_mem _ hc) rfl
      · refine update_of_ne ?_ ..
        rintro rfl
        rcases hc with hc | rfl
        · exact (List.nodup_cons.mp hnodup₂.2).1 hc
        · exact hdisjoint c (List.mem_cons_self ..) c (by simp) rfl

omit [DecidableEq ν] in
theorem next_ne (hl : Linked next prev h (l₁ ++ b :: l₂)) : next b ≠ b := by
  obtain ⟨hnodup, hseg⟩ := hl
  obtain ⟨-, hs₂⟩ := Seg.append_iff.mp hseg
  rw [← List.cons_append, List.nodup_append, List.nodup_cons (a := b)] at hnodup
  obtain ⟨-, ⟨hb, -⟩, hdisjoint⟩ := hnodup
  intro heq
  cases l₂ with
  | nil =>
    exact hdisjoint h (List.mem_cons_self ..) b (List.mem_cons_self ..) (hs₂.1.symm.trans heq)
  | cons a l₂ =>
    refine hb ?_
    rw [← heq, hs₂.1.1]
    exact List.mem_cons_self ..

end Linked

/-! ## Loops along the links -/

/-- The first node from `x` on that satisfies `p`, in a loop that ends at `h`; `none` when the fuel
runs out before that. -/
def walk [DecidableEq ν] (next : ν → ν) (h : ν) (p : ν → Bool) : ℕ → ν → Option (Option ν)
  | 0, _ => none
  | n + 1, x => if x = h then some none else if p x then some (some x) else walk next h p n (next x)

/-- The loop from the head finds what `List.find?` finds. -/
theorem Linked.walk_eq [DecidableEq ν] (hl : Linked next prev h l) (p : ν → Bool) {n : ℕ}
    (hn : l.length < n) : walk next h p n (next h) = some (l.find? p) := by
  obtain ⟨hnodup, hseg⟩ := hl
  rw [List.nodup_cons] at hnodup
  have hh := hnodup.1
  clear hnodup
  suffices hwalk : ∀ x, Seg next prev x l h → walk next h p n (next x) = some (l.find? p) from
    hwalk h hseg
  clear hseg
  induction l generalizing n with
  | nil =>
    intro x hseg
    cases n with
    | zero => exact absurd hn (Nat.not_lt_zero _)
    | succ n => rw [hseg.1, walk, if_pos rfl, List.find?_nil]
  | cons a l ih =>
    intro x hseg
    rw [List.mem_cons, not_or] at hh
    cases n with
    | zero => exact absurd hn (Nat.not_lt_zero _)
    | succ n =>
      rw [hseg.1.1, walk, if_neg (Ne.symm hh.1), List.find?_cons]
      cases hp : p a with
      | true => simp
      | false => simpa using ih (by simpa using hn) hh.2 a hseg.2

end Dlist

namespace Slist

open Function

variable {ν : Type*} {next next' : ν → Option ν} {p : Option ν} {a b : ν} {l : List ν}

/-- The nodes from `p` on. -/
def Chain (next : ν → Option ν) : Option ν → List ν → Prop
  | p, [] => p = none
  | p, a :: l => p = some a ∧ Chain next (next a) l

/-- The last node from `a` on. -/
def last (next : ν → Option ν) : ℕ → ν → Option ν
  | 0, _ => none
  | n + 1, a =>
    match next a with
    | none => some a
    | some c => last next n c

theorem Chain.congr (h : Chain next p l) (hl : ∀ a ∈ l, next' a = next a) : Chain next' p l := by
  induction l generalizing p with
  | nil => exact h
  | cons a l ih =>
    refine ⟨h.1, ?_⟩
    rw [hl a (List.mem_cons_self ..)]
    exact ih h.2 fun b hb ↦ hl b (List.mem_cons_of_mem _ hb)

theorem Chain.head_eq (h : Chain next p l) : p = l.head? := by
  cases l with
  | nil => exact h
  | cons a l => exact h.1

theorem Chain.last_eq (h : Chain next (some a) l) {n : ℕ} (hn : l.length ≤ n) :
    last next n a = l.getLast? := by
  induction l generalizing a n with
  | nil => cases h
  | cons c l ih =>
    obtain ⟨heq, h⟩ := h
    obtain rfl := Option.some.inj heq
    cases n with
    | zero => exact absurd hn (by simp)
    | succ n =>
      rw [last]
      cases hnext : next a with
      | none =>
        obtain rfl : l = [] := by
          rw [hnext] at h
          exact List.head?_eq_none_iff.mp h.head_eq.symm
        rfl
      | some d =>
        rw [hnext] at h
        have hne : l ≠ [] := by
          rintro rfl
          cases h
        rw [List.getLast?_cons_of_ne_nil hne]
        exact ih h (by simpa using hn)

/-- A node is put in at the front. -/
theorem Chain.cons (h : Chain next p l) (hb : b ∉ l) (hlink : next' b = p)
    (hother : ∀ a ∈ l, a ≠ b → next' a = next a) : Chain next' (some b) (b :: l) := by
  refine ⟨rfl, ?_⟩
  rw [hlink]
  exact h.congr fun a ha ↦ hother a ha (ne_of_mem_of_not_mem ha hb)

/-- The links determine the nodes. -/
theorem Chain.unique {l' : List ν} (h : Chain next p l) (h' : Chain next p l') : l = l' := by
  induction l generalizing p l' with
  | nil =>
    obtain rfl : p = none := h
    exact (List.head?_eq_none_iff.mp h'.head_eq.symm).symm
  | cons a l ih =>
    cases l' with
    | nil =>
      obtain rfl : p = none := h'
      cases h.1
    | cons b l' =>
      obtain rfl : a = b := Option.some.inj (h.1.symm.trans h'.1)
      rw [ih h.2 h'.2]

/-- Nodes that keep their links are still passed. -/
theorem Chain.split {l₁ l₂ l' : List ν} (h : Chain next p (l₁ ++ l₂))
    (hsame : ∀ a ∈ l₁, next' a = next a) (h' : Chain next' p l') :
    ∃ l₃, l' = l₁ ++ l₃ ∧ Chain next' l₂.head? l₃ := by
  induction l₁ generalizing p l' with
  | nil =>
    rw [List.nil_append] at h
    rw [h.head_eq] at h'
    exact ⟨l', rfl, h'⟩
  | cons a l₁ ih =>
    cases l' with
    | nil =>
      obtain rfl : p = none := h'
      cases h.1
    | cons b l' =>
      obtain rfl : a = b := Option.some.inj (h.1.symm.trans h'.1)
      have hnext := h'.2
      rw [hsame a (List.mem_cons_self ..)] at hnext
      obtain ⟨l₃, rfl, h₃⟩ := ih h.2 (fun c hc ↦ hsame c (List.mem_cons_of_mem _ hc)) hnext
      exact ⟨l₃, rfl, h₃⟩

/-- A node that is in the list already closes it to a circle, which no list describes. -/
theorem Chain.circular [DecidableEq ν] (h : Chain next p l) (hb : b ∈ l) (hlink : next' b = p)
    (hother : ∀ a ∈ l, a ≠ b → next' a = next a) (l' : List ν) : ¬Chain next' (some b) l' := by
  intro h'
  obtain ⟨l₁, l₂, rfl, hl₁⟩ := List.eq_append_cons_of_mem hb
  cases l' with
  | nil => cases h'
  | cons c l' =>
    obtain rfl : b = c := Option.some.inj h'.1
    have hrest := h'.2
    rw [hlink] at hrest
    obtain ⟨l₃, rfl, h₃⟩ := h.split (fun a ha ↦
      hother a (List.mem_append_left _ ha) (ne_of_mem_of_not_mem ha hl₁)) hrest
    -- behind `b` the nodes would be those from `b` on
    have hlen := congrArg List.length (h'.unique h₃)
    simp only [List.length_cons, List.length_append] at hlen
    omega

/-- A node is put in at the end. -/
theorem Chain.snoc [DecidableEq ν] (h : Chain next p l) (hb : b ∉ l) (hlast : l.getLast? = some a)
    (hnodup : l.Nodup) : Chain (update (update next b none) a (some b)) p (l ++ [b]) := by
  induction l generalizing p with
  | nil => cases hlast
  | cons c l ih =>
    rw [List.mem_cons, not_or] at hb
    rw [List.nodup_cons] at hnodup
    refine ⟨h.1, ?_⟩
    cases l with
    | nil =>
      obtain rfl : c = a := Option.some.inj hlast
      rw [update_self]
      refine ⟨rfl, ?_⟩
      rw [update_of_ne hb.1, update_self]
      rfl
    | cons d l =>
      rw [List.getLast?_cons_cons] at hlast
      have hca : c ≠ a := by
        rintro rfl
        exact hnodup.1 (List.mem_of_getLast? hlast)
      rw [update_of_ne hca, update_of_ne (Ne.symm hb.1)]
      exact ih h.2 hb.2 hlast hnodup.2

end Slist
