import CS537.Bio.Cache

/-!
# The list of the buffer cache

The list of all buffers is kept through `prev` and `next`. In every state that is reached it is
circular and has every buffer once, in the order in which they were last released: the buffer
released last comes first. So the loops of `bget` come to an end, and the second one takes the
buffer that has not been used for the longest time, among those that nobody holds.
-/

namespace CS537.Bio

open Function Transition

variable {s t : Kernel} {q : Slot} {b : Bufno} {a : Act} {l : List Bufno}

/-- The list leads through the buffers `l`, which are all buffers. -/
structure Listed (l : List Bufno) (s : Kernel) : Prop where
  linked : Dlist.Linked s.next s.prev .head (l.map .buf)
  perm : l.Perm (List.finRange nbuf)

namespace Listed

theorem mem (h : Listed l s) (b : Bufno) : b ∈ l := h.perm.mem_iff.mpr (List.mem_finRange b)

theorem nodup (h : Listed l s) : l.Nodup := h.perm.nodup_iff.mpr (List.nodup_finRange nbuf)

theorem length (h : Listed l s) : l.length = nbuf := by rw [h.perm.length_eq, List.length_finRange]

/-- What does not touch the links. -/
theorem congr (h : Listed l s) (hnext : t.next = s.next) (hprev : t.prev = s.prev) : Listed l t :=
  ⟨by rw [hnext, hprev]; exact h.linked, h.perm⟩

end Listed

/-! ## The list -/

theorem linked_pushFront (h : Dlist.Linked s.next s.prev .head (l.map .buf)) (hb : b ∉ l) :
    Dlist.Linked (s.pushFront b).next (s.pushFront b).prev .head ((b :: l).map .buf) := by
  have hmem : Node.buf b ∉ Node.head :: l.map .buf := by simp [hb]
  have hpush := h.push hmem
  have hne : Node.head ≠ .buf b := Node.noConfusion
  simpa [Kernel.pushFront, Kernel.setNext, Kernel.setPrev, update_of_ne hne] using hpush

theorem linked_unlink {l₁ l₂ : List Bufno}
    (h : Dlist.Linked s.next s.prev .head ((l₁ ++ b :: l₂).map .buf)) :
    Dlist.Linked (s.unlink b).next (s.unlink b).prev .head ((l₁ ++ l₂).map .buf) := by
  rw [List.map_append, List.map_cons] at h
  have hne := h.next_ne
  have hunlink := h.unlink
  simpa [Kernel.unlink, Kernel.setNext, Kernel.setPrev, update_of_ne (Ne.symm hne)] using hunlink

/-- The order of the buffers after a release. -/
def touch (l : List Bufno) : Act → List Bufno
  | .brelse _ b => b :: l.erase b
  | _ => l

theorem Listed.release (h : Listed l s) : Listed (b :: l.erase b) (release q b s) := by
  obtain ⟨l₁, l₂, rfl⟩ := List.append_of_mem (h.mem b)
  have hnodup := h.nodup
  have hb : b ∉ l₁ := by
    intro hb
    rw [List.nodup_append] at hnodup
    exact hnodup.2.2 b hb b (List.mem_cons_self ..) rfl
  have herase : (l₁ ++ b :: l₂).erase b = l₁ ++ l₂ := by
    rw [List.erase_append_right _ hb, List.erase_cons_head]
  rw [herase]
  refine ⟨?_, ?_⟩
  · have hb' : b ∉ l₁ ++ l₂ := by
      rw [← herase]
      exact hnodup.not_mem_erase
    exact linked_pushFront (linked_unlink h.linked) hb'
  · exact List.perm_middle.symm.trans h.perm

theorem Listed.trans (h : Listed l s) (ht : Trans s a t) : Listed (touch l a) t := by
  cases ht with
  | bread => exact h.congr rfl rfl
  | hit => exact h.congr rfl rfl
  | sleep => exact h.congr rfl rfl
  | miss => exact h.congr rfl rfl
  | iderw hq hbusy hdone henqueue =>
    obtain ⟨hnext, hprev, -⟩ := start_same henqueue rfl
    exact h.congr ((await_next ..).trans hnext) ((await_prev ..).trans hprev)
  | resume => exact h.congr (await_next ..) (await_prev ..)
  | ideintr ok =>
    cases hidequeue : s.idequeue with
    | none => rwa [ideintr_of_none ok hidequeue]
    | some b =>
      obtain ⟨-, -, hnext, hprev, -⟩ := ideintr_same ok hidequeue
      exact h.congr hnext hprev
  | store => exact h.congr rfl rfl
  | bwrite => exact h.congr rfl rfl
  | brelse => exact h.release
  | kill => exact h.congr rfl rfl

/-! ## The searches of `bget` -/

theorem Listed.findBlock_eq (h : Listed l s) (dev sector : BitVec 32) :
    findBlock dev sector s = some
      ((l.find? fun b ↦ (s.buf b).dev = dev ∧ (s.buf b).sector = sector).map .buf) := by
  rw [findBlock, h.linked.walk_eq _ (by rw [List.length_map, h.length]; exact Nat.lt_succ_self _),
    List.find?_map]
  rfl

theorem Listed.findFree_eq (h : Listed l s) :
    findFree s = some ((l.reverse.find? fun b ↦ (s.buf b).busy = false).map .buf) := by
  rw [findFree, h.linked.reverse.walk_eq _ (by
    rw [List.length_reverse, List.length_map, h.length]; exact Nat.lt_succ_self _),
    ← List.map_reverse, List.find?_map]
  rfl

theorem Listed.block (h : Listed l s) {dev sector : BitVec 32}
    (hfind : findBlock dev sector s = some (some (.buf b))) :
    (s.buf b).dev = dev ∧ (s.buf b).sector = sector := by
  rw [h.findBlock_eq, Option.some_inj, Option.map_eq_some_iff] at hfind
  obtain ⟨b', hb', heq⟩ := hfind
  obtain rfl := Node.buf.inj heq
  simpa using List.find?_some hb'

theorem Listed.no_block (h : Listed l s) {dev sector : BitVec 32}
    (hfind : findBlock dev sector s = some none) (b : Bufno) :
    ¬((s.buf b).dev = dev ∧ (s.buf b).sector = sector) := by
  rw [h.findBlock_eq, Option.some_inj, Option.map_eq_none_iff, List.find?_eq_none] at hfind
  simpa using hfind b (h.mem b)

theorem Listed.free (h : Listed l s) (hfind : findFree s = some (some (.buf b))) :
    (s.buf b).busy = false := by
  rw [h.findFree_eq, Option.some_inj, Option.map_eq_some_iff] at hfind
  obtain ⟨b', hb', heq⟩ := hfind
  obtain rfl := Node.buf.inj heq
  simpa using List.find?_some hb'

/-! ## Runs -/

theorem listed_fold {bs : List Bufno} {l : List Bufno}
    (h : Dlist.Linked s.next s.prev .head (l.map .buf)) (hbs : (bs.reverse ++ l).Nodup) :
    let s' := bs.foldl (fun s b ↦ (s.setBuf b { s.buf b with dev := -1 }).pushFront b) s
    Dlist.Linked s'.next s'.prev .head ((bs.reverse ++ l).map .buf) := by
  induction bs generalizing s l with
  | nil => exact h
  | cons b bs ih =>
    rw [List.reverse_cons, List.append_assoc, List.singleton_append] at hbs ⊢
    have hb : b ∉ l := (List.nodup_cons.mp hbs.of_append_right).1
    exact ih (linked_pushFront (s := s.setBuf b { s.buf b with dev := -1 }) h hb) hbs

theorem listed_binit (s : Kernel) : Listed (List.finRange nbuf).reverse (binit s) := by
  refine ⟨?_, List.reverse_perm _⟩
  have hnodup : ((List.finRange nbuf).reverse ++ ([] : List Bufno)).Nodup := by
    rw [List.append_nil]
    exact List.nodup_reverse.mpr (List.nodup_finRange nbuf)
  have hfold := listed_fold (s := (s.setPrev .head .head).setNext .head .head) (l := [])
    (.nil _ (by simp [Kernel.setNext]) (by simp [Kernel.setNext, Kernel.setPrev])) hnodup
  rw [List.append_nil] at hfold
  exact hfold

/-- The buffers, the one released last first; at the start they are in the order of `binit`. -/
def recency (tr : List (Move Kernel Act)) : List Bufno :=
  tr.foldl (fun l m ↦ touch l m.act) (List.finRange nbuf).reverse

/-- **The order of the buffers.** In every run the list of the cache has all buffers, each once, in
the order in which they were last released. -/
theorem lru_order {disk : ℕ × ℕ → Block} {havedisk1 : Bool} {tr : List (Move Kernel Act)}
    (h : Run step (boot disk havedisk1) tr s) : Listed (recency tr) s := by
  induction h with
  | nil => exact listed_binit _
  | snoc _ hstep ih =>
    rw [recency, List.foldl_append]
    exact ih.trans (trans_of_step hstep)

/-- The state after the moves, from boot on with empty disks. -/
def after (havedisk1 : Bool) (as : List Act) : Kernel :=
  (replay step as (boot (fun _ _ ↦ 0) havedisk1)).getD (boot (fun _ _ ↦ 0) havedisk1)

/-- The process `0` asks for a block of the second disk, and waits for it. -/
def asking : List Act := [.bread 0 1 2, .bget 0, .iderw 0]

theorem run_after {havedisk1 : Bool} {as : List Act}
    (h : (replay step as (boot (fun _ _ ↦ 0) havedisk1)).isSome) :
    Run step (boot (fun _ _ ↦ 0) havedisk1) (moves step as (boot (fun _ _ ↦ 0) havedisk1))
      (after havedisk1 as) := run_of_isSome h

theorem reach_after {havedisk1 : Bool} {as : List Act}
    (h : (replay step as (boot (fun _ _ ↦ 0) havedisk1)).isSome) : Reach (after havedisk1 as) :=
  ⟨_, _, ⟨_, _, rfl⟩, run_after h, fun _ _ ↦ trivial⟩

end CS537.Bio
