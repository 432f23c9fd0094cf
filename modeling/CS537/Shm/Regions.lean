import CS537.Shm.Exec
import CS537.Shm.UserMap

/-!
# Reference counts and region frames

What the loops over the keys do to the region tables: `wait` and `exec` lower the counters of the
regions a process leaves, and a region whose counter reaches 0 gives its frames back; `fork` raises
the counters of the regions the child inherits; `shmgetat` maps the frames of one region.
-/

open Finset Function Wrapping Holding

namespace CS537.Shm

variable {L : Link}

/-- How often the frame `f` is recorded for the first `n` pages of a row of `shmem_paddr`. -/
def rowHolds (row : ℕ → ℕ) (n f : ℕ) : ℕ := held (range n) (fun i ↦ some (row i)) f

/-! ## Leaving regions -/

theorem freeRegion_freed {k : Key} {n i : ℕ} (s : Kernel)
    (h : ∀ j, i ≤ j → j < i + n → L.Valid (s.shmemPaddr k j)) :
    ∃ l, freeRegion L k n i s = .ok { s with
        freelist := l ++ s.freelist
        shmemPaddr := update s.shmemPaddr k
          (fun j ↦ if i ≤ j ∧ j < i + n then 0 else s.shmemPaddr k j) } ∧
      (∀ f, l.count f = held (Ico i (i + n)) (fun j ↦ some (s.shmemPaddr k j)) f) ∧
      ∀ f ∈ l, L.Valid f := by
  -- on the pages left, with the index and the kernel free: each round clears one entry of the row
  induction n generalizing i s with
  | zero =>
    refine ⟨[], ?_, fun f ↦ ?_, by simp⟩
    · have hrow : (fun j ↦ if i ≤ j ∧ j < i + 0 then 0 else s.shmemPaddr k j) = s.shmemPaddr k := by
        funext j
        rw [if_neg (by omega)]
      rw [hrow, update_eq_self]
      rfl
    · rw [Nat.add_zero, Ico_self]
      rfl
  | succ n ih =>
    have hv := h i (by omega) (by omega)
    obtain ⟨l, hok, hcount, hvalid⟩ :=
      ih (i := i + 1) ((s.setFreelist (s.shmemPaddr k i :: s.freelist)).setPaddr k i 0) (by
        intro j h1 h2
        simp only [Kernel.setPaddr, Kernel.setFreelist, update_self]
        rw [update_of_ne (by omega)]
        exact h j (by omega) (by omega))
    refine ⟨l ++ [s.shmemPaddr k i], ?_, fun f ↦ ?_, fun f hf ↦ ?_⟩
    · rw [freeRegion, kfree_of_valid hv, ok_bind, hok]
      simp only [Kernel.setPaddr, Kernel.setFreelist, update_self, update_idem, List.append_assoc,
        List.singleton_append]
      congr 3
      funext j
      by_cases hj : j = i
      · subst hj
        rw [if_neg (by omega), if_pos (by omega), update_self]
      · rw [update_of_ne hj]
        by_cases h' : i ≤ j ∧ j < i + (n + 1)
        · rw [if_pos (by omega), if_pos h']
        · rw [if_neg (by omega), if_neg h']
    · have hrest : held (Ico (i + 1) (i + 1 + n))
          (fun j ↦ some
            (((s.setFreelist (s.shmemPaddr k i :: s.freelist)).setPaddr k i 0).shmemPaddr k j)) f =
          held (Ico (i + 1) (i + 1 + n)) (fun j ↦ some (s.shmemPaddr k j)) f := by
        refine held_congr (fun j hj ↦ ?_) f
        rw [mem_Ico] at hj
        simp only [Kernel.setPaddr, Kernel.setFreelist, update_self]
        rw [update_of_ne (by omega)]
      rw [List.count_append, hcount, hrest, Ico_eq_insert, held_insert (by simp), cell_some,
        List.count_singleton]
      simp [Nat.add_comm]
    · rcases List.mem_append.mp hf with hf | hf
      · exact hvalid f hf
      · rw [List.mem_singleton.mp hf]
        exact hv

/-- One round of the loops over the keys in `wait` and in `exec`, for the addresses `v`. -/
def dropKey (L : Link) (v : Key → ℕ) (s : Kernel) (k : Key) : Except String Kernel :=
  if v k ≠ 0 then shmDecreaseCount L k s else pure s

/-- One if the region is attached, else zero. -/
def attachedTo (v : Key → ℕ) (k : Key) : ℕ := if v k ≠ 0 then 1 else 0

/-- Leaving the regions `v` drops the last reference to the region `k`. -/
def LastRef (v : Key → ℕ) (count : Key → ℤ) (k : Key) : Prop := v k ≠ 0 ∧ count k = 1

instance (v : Key → ℕ) (count : Key → ℤ) (k : Key) : Decidable (LastRef v count k) :=
  inferInstanceAs (Decidable (_ ∧ _))

/-- The rows of `shmem_paddr` after the regions `v` among `ks` have been left. -/
def droppedPaddr (v : Key → ℕ) (ks : List Key) (s : Kernel) (k : Key) (i : ℕ) : ℕ :=
  if k ∈ ks ∧ LastRef v s.shmemCount k ∧ i < s.shmemPages k then 0 else s.shmemPaddr k i

/-- The frames `l` that go back when the regions `v` among `ks` are left. -/
structure DropFrees (L : Link) (v : Key → ℕ) (ks : List Key) (s : Kernel) (l : List ℕ) : Prop where
  count : ∀ f, l.count f = ∑ k ∈ ks.toFinset, if LastRef v s.shmemCount k then
    rowHolds (s.shmemPaddr k) (s.shmemPages k) f else 0
  valid : ∀ f ∈ l, L.Valid f

/-- If the region is attached, its counter is positive and in range. -/
def Kernel.Counted (s : Kernel) (v : Key → ℕ) (k : Key) : Prop :=
  v k ≠ 0 → 0 < s.shmemCount k ∧ s.shmemCount k < 2 ^ 31

theorem Kernel.Counted.pred {s : Kernel} {v : Key → ℕ} {k : Key} (h : s.Counted v k)
    (hv : v k ≠ 0) : toInt32 (s.shmemCount k - 1) = s.shmemCount k - 1 := by
  have := h hv
  exact toInt32_of_range (by omega) (by omega)

theorem dropKey_dropped {v : Key → ℕ} (k : Key) (s : Kernel) (hcount : s.Counted v k)
    (h : LastRef v s.shmemCount k → ∀ i < s.shmemPages k, L.Valid (s.shmemPaddr k i)) :
    ∃ l, dropKey L v s k = .ok { s with
        freelist := l ++ s.freelist
        shmemCount := update s.shmemCount k (s.shmemCount k - attachedTo v k)
        shmemPaddr := update s.shmemPaddr k (droppedPaddr v [k] s k) } ∧
      DropFrees L v [k] s l := by
  -- the region is not attached, is left for the last time, or is left with others still in it
  by_cases hv : v k = 0
  · have hlast : ¬LastRef v s.shmemCount k := fun h ↦ h.1 hv
    refine ⟨[], ?_, fun f ↦ by simp [hlast], by simp⟩
    have hrow : droppedPaddr v [k] s k = s.shmemPaddr k := by
      funext i
      rw [droppedPaddr, if_neg (fun h ↦ hlast h.2.1)]
    rw [dropKey, if_neg (fun h ↦ h hv), hrow, attachedTo, if_neg (fun h ↦ h hv)]
    simp only [Nat.cast_zero, sub_zero, update_eq_self, List.nil_append]
    rfl
  have hpred := hcount.pred hv
  by_cases hc : s.shmemCount k = 1
  · have hlast : LastRef v s.shmemCount k := ⟨hv, hc⟩
    obtain ⟨l, hok, hcount, hvalid⟩ := freeRegion_freed (L := L) (k := k) (n := s.shmemPages k)
      (i := 0) (s.setCount k (s.shmemCount k - 1)) (fun j _ hj ↦ h hlast j (by omega))
    refine ⟨l, ?_, fun f ↦ ?_, hvalid⟩
    · have hzero : (s.setCount k (s.shmemCount k - 1)).shmemCount k = 0 := by
        simp [Kernel.setCount, hc]
      rw [dropKey, if_pos hv, shmDecreaseCount, hpred, if_pos hzero]
      refine hok.trans ?_
      have hrow : droppedPaddr v [k] s k
          = fun j ↦ if 0 ≤ j ∧ j < 0 + s.shmemPages k then 0 else s.shmemPaddr k j := by
        funext j
        rw [droppedPaddr]
        refine if_congr ?_ rfl rfl
        simp [hlast]
      rw [hrow, attachedTo, if_pos hv]
      rfl
    · rw [hcount]
      simp only [List.toFinset_cons, List.toFinset_nil, insert_empty_eq, sum_singleton,
        if_pos hlast, rowHolds, range_eq_Ico, Nat.zero_add]
      rfl
  · have hlast : ¬LastRef v s.shmemCount k := fun h ↦ hc h.2
    refine ⟨[], ?_, fun f ↦ by simp [hlast], by simp⟩
    have hrow : droppedPaddr v [k] s k = s.shmemPaddr k := by
      funext i
      rw [droppedPaddr, if_neg (fun h ↦ hlast h.2.1)]
    have hne : (s.setCount k (s.shmemCount k - 1)).shmemCount k ≠ 0 := by
      simp only [Kernel.setCount, update_self]
      omega
    rw [dropKey, if_pos hv, shmDecreaseCount, hpred, if_neg hne, hrow, attachedTo, if_pos hv]
    simp only [Nat.cast_one, update_eq_self, List.nil_append]
    rfl

/-- The loop over the keys. -/
theorem dropKeys_dropped {v : Key → ℕ} {ks : List Key} (hks : ks.Nodup) (s : Kernel)
    (hcount : ∀ k ∈ ks, s.Counted v k)
    (h : ∀ k ∈ ks, LastRef v s.shmemCount k →
      ∀ i < s.shmemPages k, L.Valid (s.shmemPaddr k i)) :
    ∃ l, ks.foldlM (dropKey L v) s = .ok { s with
        freelist := l ++ s.freelist
        shmemCount := fun k ↦ s.shmemCount k - if k ∈ ks then attachedTo v k else 0
        shmemPaddr := droppedPaddr v ks s } ∧
      DropFrees L v ks s l := by
  induction ks generalizing s with
  | nil =>
    refine ⟨[], ?_, fun f ↦ rfl, by simp⟩
    have hrow : droppedPaddr v [] s = s.shmemPaddr := by
      funext k i
      simp [droppedPaddr]
    rw [hrow]
    simp
    rfl
  | cons k ks ih =>
    obtain ⟨hk, hnodup⟩ := List.nodup_cons.mp hks
    obtain ⟨l₁, hok₁, hfrees₁⟩ := dropKey_dropped k s (hcount k (by simp)) (h k (by simp))
    have hne : ∀ k' ∈ ks, k' ≠ k := fun k' hk' heq ↦ hk (heq ▸ hk')
    let s₁ : Kernel := { s with
      freelist := l₁ ++ s.freelist
      shmemCount := update s.shmemCount k (s.shmemCount k - attachedTo v k)
      shmemPaddr := update s.shmemPaddr k (droppedPaddr v [k] s k) }
    -- the keys are distinct, so the rest of the loop sees the other regions as they were
    have hcount₁ : ∀ k', k' ≠ k → s₁.shmemCount k' = s.shmemCount k' := fun k' hk' ↦
      update_of_ne hk' _ _
    have hpaddr₁ : ∀ k', k' ≠ k → s₁.shmemPaddr k' = s.shmemPaddr k' := fun k' hk' ↦
      update_of_ne hk' _ _
    have hlast : ∀ k', k' ≠ k → (LastRef v s₁.shmemCount k' ↔ LastRef v s.shmemCount k') := by
      intro k' hk'
      rw [LastRef, LastRef, hcount₁ k' hk']
    obtain ⟨l₂, hok₂, hfrees₂⟩ := ih hnodup s₁ (fun k' hk' ↦ by
      rw [Kernel.Counted, hcount₁ k' (hne k' hk')]
      exact hcount k' (by simp [hk'])) (by
      intro k' hk' hl
      rw [hpaddr₁ k' (hne k' hk')]
      exact h k' (by simp [hk']) ((hlast k' (hne k' hk')).mp hl))
    refine ⟨l₂ ++ l₁, ?_, fun f ↦ ?_, fun f hf ↦ ?_⟩
    · rw [List.foldlM_cons, hok₁, ok_bind]
      refine hok₂.trans ?_
      have hc : (fun k' ↦ s₁.shmemCount k' - if k' ∈ ks then (attachedTo v k' : ℤ) else 0)
          = fun k' ↦ s.shmemCount k' - if k' ∈ k :: ks then (attachedTo v k' : ℤ) else 0 := by
        funext k'
        by_cases hk' : k' = k
        · subst hk'
          simp [s₁, hk]
        · simp [hcount₁ k' hk', hk']
      have hp : droppedPaddr v ks s₁ = droppedPaddr v (k :: ks) s := by
        funext k' i
        by_cases hk' : k' = k
        · subst hk'
          simp [droppedPaddr, hk, s₁]
        · rw [droppedPaddr, droppedPaddr, hpaddr₁ k' hk']
          refine if_congr ?_ rfl rfl
          rw [hlast k' hk', List.mem_cons]
          simp [hk', s₁]
      rw [hp]
      push_cast at hc ⊢
      rw [hc, List.append_assoc]
    · have hhead : l₁.count f = if LastRef v s.shmemCount k then
          rowHolds (s.shmemPaddr k) (s.shmemPages k) f else 0 := by
        rw [hfrees₁.count]
        simp
      have hsum : (∑ k' ∈ ks.toFinset, if LastRef v s₁.shmemCount k' then
          rowHolds (s₁.shmemPaddr k') (s₁.shmemPages k') f else 0)
          = ∑ k' ∈ ks.toFinset, if LastRef v s.shmemCount k' then
            rowHolds (s.shmemPaddr k') (s.shmemPages k') f else 0 := by
        refine sum_congr rfl fun k' hk' ↦ ?_
        have hk'' := hne k' (List.mem_toFinset.mp hk')
        rw [hpaddr₁ k' hk'']
        exact if_congr (hlast k' hk'') rfl rfl
      rw [List.count_append, hhead, hfrees₂.count, hsum, List.toFinset_cons,
        sum_insert (by simp [hk]), Nat.add_comm]
    · exact (List.mem_append.mp hf).elim (hfrees₂.valid f) (hfrees₁.valid f)

/-- The region tables do not depend on the process table. -/
theorem freeRegion_setProc (k : Key) (n i : ℕ) (s : Kernel) (q : Slot) (p : Proc) :
    freeRegion L k n i (s.setProc q p) = (freeRegion L k n i s).map (·.setProc q p) := by
  induction n generalizing i s with
  | zero => rfl
  | succ n ih =>
    rw [freeRegion, freeRegion]
    change (kfree L (s.shmemPaddr k i) s.freelist >>= _) = _
    cases kfree L (s.shmemPaddr k i) s.freelist with
    | error e => rfl
    | ok m => exact ih (i + 1) ((s.setFreelist m).setPaddr k i 0)

theorem dropKey_setProc (v : Key → ℕ) (k : Key) (s : Kernel) (q : Slot) (p : Proc) :
    dropKey L v (s.setProc q p) k = (dropKey L v s k).map (·.setProc q p) := by
  rw [dropKey, dropKey]
  split
  · rw [shmDecreaseCount, shmDecreaseCount]
    let u := s.setCount k (toInt32 (s.shmemCount k - 1))
    change (if u.shmemCount k = 0 then freeRegion L k (s.shmemPages k) 0 (u.setProc q p)
      else pure (u.setProc q p)) = _
    rw [freeRegion_setProc]
    split <;> rfl
  · rfl

theorem dropKeys_setProc (v : Key → ℕ) (ks : List Key) (s : Kernel) (q : Slot) (p : Proc) :
    ks.foldlM (dropKey L v) (s.setProc q p)
      = (ks.foldlM (dropKey L v) s).map (·.setProc q p) := by
  induction ks generalizing s with
  | nil => rfl
  | cons k ks ih =>
    rw [List.foldlM_cons, List.foldlM_cons, dropKey_setProc]
    cases dropKey L v s k with
    | error e => rfl
    | ok t => exact ih t

theorem dropKey_proc {v : Key → ℕ} {k : Key} {s t : Kernel} (h : dropKey L v s k = .ok t)
    (q : Slot) : t.proc q = s.proc q := by
  -- the round commutes with a write to the table: write back the entry that is there
  have hself := dropKey_setProc (L := L) v k s q (s.proc q)
  rw [s.setProc_eq_self, h] at hself
  have ht : t = t.setProc q (s.proc q) := Except.ok.inj hself
  rw [ht]
  exact update_self ..

theorem dropKeys_congr {v v' : Key → ℕ} {ks : List Key} (h : ∀ k ∈ ks, v k = v' k) (s : Kernel) :
    ks.foldlM (dropKey L v) s = ks.foldlM (dropKey L v') s := by
  induction ks generalizing s with
  | nil => rfl
  | cons k ks ih =>
    have hone : dropKey L v s k = dropKey L v' s k := by
      rw [dropKey, dropKey, h k (by simp)]
    rw [List.foldlM_cons, List.foldlM_cons, hone]
    cases dropKey L v' s k with
    | error e => rfl
    | ok t => exact ih (fun k' hk' ↦ h k' (by simp [hk'])) t

/-- The last loop of `wait`. -/
theorem detachKeys_eq (p : Slot) (v : Key → ℕ) (ks : List Key) (s : Kernel)
    (hv : (s.proc p).shmemVaddr = v) :
    ks.foldlM (detachOne L p) s = ks.foldlM (dropKey L v) s := by
  induction ks generalizing s with
  | nil => rfl
  | cons k ks ih =>
    have hone : detachOne L p s k = dropKey L v s k := by
      rw [detachOne, dropKey, hv]
    rw [List.foldlM_cons, List.foldlM_cons, hone]
    cases ht : dropKey L v s k with
    | error e => rfl
    | ok t => exact ih t (by rw [dropKey_proc ht, hv])

/-- The addresses `v` with those of the regions `ks` cleared. -/
def clearKeys (v : Key → ℕ) (ks : List Key) (k : Key) : ℕ := if k ∈ ks then 0 else v k

theorem leaveOne_eq (q : Slot) (s : Kernel) (k : Key) :
    leaveOne L q s k = dropKey L (s.proc q).shmemVaddr s k >>= fun t ↦ pure (t.setProc q
      { t.proc q with shmemVaddr := update (t.proc q).shmemVaddr k 0 }) := by
  rw [leaveOne, dropKey]
  split <;> rfl

/-- The loop of `exec` also clears the addresses it has looked at. -/
theorem leaveKeys_eq (q : Slot) {ks : List Key} (hks : ks.Nodup) (s : Kernel) :
    ks.foldlM (leaveOne L q) s = (ks.foldlM (dropKey L (s.proc q).shmemVaddr) s).map
      (·.setProc q { s.proc q with shmemVaddr := clearKeys (s.proc q).shmemVaddr ks }) := by
  induction ks generalizing s with
  | nil =>
    have hclear : clearKeys (s.proc q).shmemVaddr [] = (s.proc q).shmemVaddr := by
      funext k
      simp [clearKeys]
    rw [hclear]
    change Except.ok s = Except.ok (s.setProc q (s.proc q))
    rw [Kernel.setProc, update_eq_self]
  | cons k ks ih =>
    obtain ⟨hk, hnodup⟩ := List.nodup_cons.mp hks
    rw [List.foldlM_cons, List.foldlM_cons, leaveOne_eq]
    cases ht : dropKey L (s.proc q).shmemVaddr s k with
    | error e => rfl
    | ok t =>
      let p₁ : Proc := { s.proc q with shmemVaddr := update (s.proc q).shmemVaddr k 0 }
      -- clearing the address of `k` does not show at the keys to come
      have hcongr : ks.foldlM (dropKey L p₁.shmemVaddr) t
          = ks.foldlM (dropKey L (s.proc q).shmemVaddr) t :=
        dropKeys_congr (fun k' hk' ↦ update_of_ne (fun heq ↦ hk (by rwa [← heq])) _ _) t
      have hp : ((t.setProc q p₁).proc q) = p₁ := update_self ..
      have hclear : clearKeys p₁.shmemVaddr ks = clearKeys (s.proc q).shmemVaddr (k :: ks) := by
        funext k'
        by_cases hk' : k' = k
        · subst hk'
          simp [clearKeys, p₁]
        · simp [clearKeys, p₁, hk']
      rw [ok_bind, ok_bind]
      change ks.foldlM (leaveOne L q) (t.setProc q
        { t.proc q with shmemVaddr := update (t.proc q).shmemVaddr k 0 }) = _
      rw [dropKey_proc ht, ih hnodup (t.setProc q p₁), hp, dropKeys_setProc, hcongr, hclear]
      cases ks.foldlM (dropKey L (s.proc q).shmemVaddr) t with
      | error e => rfl
      | ok u =>
        change Except.ok ((u.setProc q p₁).setProc q _) = Except.ok (u.setProc q _)
        rw [Kernel.setProc, Kernel.setProc, Kernel.setProc, update_idem]

theorem nodup_keys : keys.Nodup := List.nodup_finRange _

theorem mem_keys (k : Key) : k ∈ keys := List.mem_finRange k

theorem toFinset_keys : keys.toFinset = univ := by
  ext k
  simp [mem_keys]

/-! ## Inheriting regions -/

/-- The addresses of `v` for the regions `ks`, those of `v'` for the others. -/
def copyKeys (v v' : Key → ℕ) (ks : List Key) (k : Key) : ℕ := if k ∈ ks then v k else v' k

/-- The counters after those of the regions `v` among `ks` have been raised. -/
def raiseCount (v : Key → ℕ) (ks : List Key) (count : Key → ℤ) (k : Key) : ℤ :=
  if k ∈ ks ∧ v k ≠ 0 then toInt32 (count k + 1) else count k

/-- The loop of `fork` over the regions. -/
theorem inheritKeys_eq {q np : Slot} (hne : q ≠ np) {ks : List Key} (hks : ks.Nodup) (s : Kernel) :
    ks.foldl (inheritOne q np) s = { s with
      proc := update s.proc np { s.proc np with
        shmemVaddr := copyKeys (s.proc q).shmemVaddr (s.proc np).shmemVaddr ks }
      shmemCount := raiseCount (s.proc q).shmemVaddr ks s.shmemCount } := by
  induction ks generalizing s with
  | nil =>
    have hcopy :
        copyKeys (s.proc q).shmemVaddr (s.proc np).shmemVaddr [] = (s.proc np).shmemVaddr := by
      funext k
      simp [copyKeys]
    have hcount : raiseCount (s.proc q).shmemVaddr [] s.shmemCount = s.shmemCount := by
      funext k
      simp [raiseCount]
    rw [hcopy, hcount, update_eq_self]
    rfl
  | cons k ks ih =>
    obtain ⟨hk, hnodup⟩ := List.nodup_cons.mp hks
    let v := (s.proc q).shmemVaddr
    let p₁ : Proc := { s.proc np with shmemVaddr := update (s.proc np).shmemVaddr k (v k) }
    let s₁ : Kernel := (s.setProc np p₁).setCount k (raiseCount v [k] s.shmemCount k)
    have hone : inheritOne q np s k = s₁ := by
      rw [inheritOne]
      simp only [s₁, raiseCount, List.mem_singleton, true_and]
      split
      · rfl
      · rw [Kernel.setCount]
        simp only [Kernel.setProc, update_eq_self]
        rfl
    have hq : s₁.proc q = s.proc q := update_of_ne hne _ _
    have hnp : s₁.proc np = p₁ := update_self ..
    rw [List.foldl_cons, hone, ih hnodup s₁]
    have hproc : update s₁.proc np { s₁.proc np with
        shmemVaddr := copyKeys (s₁.proc q).shmemVaddr (s₁.proc np).shmemVaddr ks }
        = update s.proc np { s.proc np with
          shmemVaddr := copyKeys v (s.proc np).shmemVaddr (k :: ks) } := by
      have hcopy :
          copyKeys v p₁.shmemVaddr ks = copyKeys v (s.proc np).shmemVaddr (k :: ks) := by
        funext k'
        by_cases hk' : k' = k
        · subst hk'
          simp [copyKeys, p₁]
        · simp [copyKeys, p₁, hk']
      rw [hnp, hq, hcopy]
      exact update_idem ..
    -- the keys are distinct, so the rest of the loop finds the other counters as they were
    have hcount : raiseCount (s₁.proc q).shmemVaddr ks s₁.shmemCount
        = raiseCount v (k :: ks) s.shmemCount := by
      funext k'
      rw [hq]
      by_cases hk' : k' = k
      · subst hk'
        simp [raiseCount, s₁, hk, Kernel.setCount, v]
      · have hsame : s₁.shmemCount k' = s.shmemCount k' := update_of_ne hk' _ _
        simp [raiseCount, hsame, hk', v]
    rw [hproc, hcount]
    rfl

/-! ## Attaching a region -/

/-- The frames for `n` pages of a region from index `i` on: fresh ones from the head of the free
list, or those recorded already. -/
structure RowFor (L : Link) (fresh : Bool) (n i : ℕ) (m : Freelist) (row : ℕ → ℕ) (m' : Freelist)
    (row' : ℕ → ℕ) : Prop where
  other : ∀ j, ¬(i ≤ j ∧ j < i + n) → row' j = row j
  old : fresh = false → m' = m ∧ row' = row
  taken : fresh = true → m.length = n + m'.length ∧
    ∀ f, m'.count f + held (Ico i (i + n)) (fun j ↦ some (row' j)) f = m.count f
  valid : ∀ j, i ≤ j → j < i + n → L.Valid (row' j)
  free : ∀ f ∈ m', L.Valid f

/-- The frame for the index `i`, before the frames from the index `i + 1` on. -/
theorem RowFor.cons {fresh : Bool} {n i r : ℕ} {fl m m' : Freelist} {row row' : ℕ → ℕ}
    (h : RowFor L fresh n (i + 1) m (update row i r) m' row') (hr : fresh = true → fl = r :: m)
    (hold : fresh = false → fl = m ∧ row i = r) (hvalid : L.Valid r) :
    row' i = r ∧ RowFor L fresh (n + 1) i fl row m' row' := by
  have hrowi : row' i = r := by
    rw [h.other i (by omega)]
    exact update_self ..
  refine ⟨hrowi, ⟨fun j hj ↦ ?_, fun hf ↦ ?_, fun hf ↦ ⟨?_, fun f ↦ ?_⟩, fun j h1 h2 ↦ ?_, h.free⟩⟩
  · rw [h.other j (by omega)]
    exact update_of_ne (by omega) _ _
  -- a recorded frame is written back unchanged
  · obtain ⟨hm', hrow'⟩ := h.old hf
    obtain ⟨hfl, hpi⟩ := hold hf
    refine ⟨by rw [hm', hfl], ?_⟩
    rw [hrow']
    exact update_eq_self_iff.mpr hpi.symm
  · have hlen := (h.taken hf).1
    rw [hr hf, List.length_cons]
    omega
  · have hcount := (h.taken hf).2 f
    rw [Ico_eq_insert, held_insert (by simp), hrowi, cell_some, hr hf, List.count_cons]
    simp only [beq_iff_eq]
    omega
  · rcases eq_or_ne j i with rfl | hj
    · rwa [hrowi]
    · exact h.valid j (by omega) (by omega)

theorem attachPage_eq (fresh : Bool) (q : Slot) (k : Key) (i v : ℕ) (s : Kernel) {m : Freelist}
    {r : ℕ} (hr : fresh = true → kalloc s.freelist = some (r, m))
    (hold : fresh = false → s.freelist = m ∧ s.shmemPaddr k i = r)
    (htab : ((s.proc q).pgdir.tab (v / 1024)).isSome) (hfree : (s.proc q).pgdir.pte v = none) :
    attachPage fresh q k i (v * pgsize) s = .ok ((((s.setFreelist m).setPaddr k i r).setProc q
      { s.proc q with pgdir := (s.proc q).pgdir.setPte v (some ⟨r, true, true⟩) })) := by
  have hmap := mappages_one r (w := true) (u := true) htab hfree m
  cases fresh with
  | true =>
    have hrow : ((s.setFreelist m).setPaddr k i r).shmemPaddr k i = r := by
      simp [Kernel.setPaddr]
    rw [attachPage, if_pos rfl, hr rfl]
    change mappages (v * pgsize) pgsize (((s.setFreelist m).setPaddr k i r).shmemPaddr k i) true
      true m (s.proc q).pgdir >>= _ = _
    rw [hrow, hmap]
    rfl
  | false =>
    obtain ⟨hm, hrow⟩ := hold rfl
    have hself : (s.setFreelist m).setPaddr k i r = s.setFreelist m := by
      rw [Kernel.setPaddr, ← hrow]
      simp [Kernel.setFreelist]
    rw [attachPage, if_neg (by simp), hself]
    change mappages (v * pgsize) pgsize (s.shmemPaddr k i) true true s.freelist (s.proc q).pgdir
      >>= _ = _
    rw [hrow, hm, hmap]
    rfl

/-- The loop of `shmgetat` over `n` pages below `v`. It panics when memory runs out. -/
theorem attachPages_outcome {fresh : Bool} {q : Slot} {k : Key} {n i v : ℕ} (s : Kernel)
    (hd : Space L (s.proc q).pgdir) (hm : ∀ f ∈ s.freelist, L.Valid f) (hv : v ≤ 160) (hn : n ≤ v)
    (hfree : ∀ u, v - n ≤ u → u < v → (s.proc q).pgdir.pte u = none)
    (hold : fresh = false → ∀ j, i ≤ j → j < i + n → L.Valid (s.shmemPaddr k j)) :
    ((∃ e, attachPages fresh q k n i (v * pgsize) s = .error e) ∧ fresh = true ∧
      s.freelist.length < n) ∨
    ∃ m' d' row', attachPages fresh q k n i (v * pgsize) s = .ok (({ s with
        freelist := m'
        shmemPaddr := update s.shmemPaddr k row' } : Kernel).setProc q
          { s.proc q with pgdir := d' }) ∧
      RowFor L fresh n i s.freelist (s.shmemPaddr k) m' row' ∧
      d'.frame = (s.proc q).pgdir.frame ∧ d'.tab = (s.proc q).pgdir.tab ∧
      ∀ u, d'.pte u = if v - n ≤ u ∧ u < v then some ⟨row' (i + (v - 1 - u)), true, true⟩
        else (s.proc q).pgdir.pte u := by
  induction n generalizing i v s with
  | zero =>
    refine .inr ⟨s.freelist, (s.proc q).pgdir, s.shmemPaddr k, ?_,
      ⟨fun j _ ↦ rfl, fun _ ↦ ⟨rfl, rfl⟩,
      fun _ ↦ ⟨by simp, fun f ↦ by simp⟩, fun j h1 h2 ↦ by omega, hm⟩, rfl, rfl, fun u ↦ ?_⟩
    · rw [update_eq_self, Kernel.setProc, update_eq_self]
      rfl
    · rw [if_neg (by omega)]
  | succ n ih =>
    have hsub : sub32 (v * pgsize) pgsize = (v - 1) * pgsize := by
      rw [sub32_of_le (by simp only [pgsize]; omega) (by simp only [pgsize]; omega)]
      simp only [pgsize]
      omega
    have htab := hd.isSome_tab (v := v - 1) (by omega)
    have hnone := hfree (v - 1) (by omega) (by omega)
    rw [attachPages, hsub]
    -- the frame for this page
    have hframe : (fresh = true ∧ s.freelist = []) ∨ ∃ r m,
        (fresh = true → s.freelist = r :: m) ∧
        (fresh = false → s.freelist = m ∧ s.shmemPaddr k i = r) ∧ L.Valid r := by
      cases fresh with
      | true =>
        cases hfl : s.freelist with
        | nil => exact .inl ⟨rfl, rfl⟩
        | cons r m => exact .inr ⟨r, m, fun _ ↦ rfl, by simp, hm r (by simp [hfl])⟩
      | false =>
        exact .inr ⟨s.shmemPaddr k i, s.freelist, by simp, fun _ ↦ ⟨rfl, rfl⟩,
          hold rfl i (by omega) (by omega)⟩
    rcases hframe with ⟨rfl, hnil⟩ | ⟨r, m, hr, hold', hvalid⟩
    · refine .inl ⟨⟨"shmem kalloc failed", ?_⟩, rfl, by simp [hnil]⟩
      rw [attachPage, if_pos rfl, hnil]
      rfl
    · have hone := attachPage_eq fresh q k i (v - 1) s (m := m) (r := r)
        (fun h ↦ by rw [hr h]; rfl) hold' htab hnone
      let d₁ := (s.proc q).pgdir.setPte (v - 1) (some ⟨r, true, true⟩)
      let row₁ := update (s.shmemPaddr k) i r
      let s₁ : Kernel :=
        (((s.setFreelist m).setPaddr k i r).setProc q { s.proc q with pgdir := d₁ })
      have hq₁ : s₁.proc q = { s.proc q with pgdir := d₁ } := update_self ..
      have hpaddr₁ : s₁.shmemPaddr = update s.shmemPaddr k row₁ := rfl
      have hrow₁ : ∀ j, j ≠ i → row₁ j = s.shmemPaddr k j := fun j hj ↦ update_of_ne hj _ _
      have hset : d₁.pte = update (s.proc q).pgdir.pte (v - 1) (some ⟨r, true, true⟩) :=
        PageDir.setPte_pte _ htab _
      have hspace₁ : Space L d₁ :=
        hd.setPte (by omega) (fun p hp ↦ by cases hp; exact ⟨hvalid, rfl, rfl⟩)
      have hm₁ : ∀ f ∈ m, L.Valid f := by
        intro f hf
        cases fresh with
        | true => exact hm f (by rw [hr rfl]; simp [hf])
        | false => exact hm f (by rw [(hold' rfl).1]; exact hf)
      rw [hone, ok_bind]
      rcases ih (i := i + 1) (v := v - 1) s₁ (by rw [hq₁]; exact hspace₁) hm₁ (by omega) (by omega)
        (fun u h1 h2 ↦ by
          rw [hq₁]
          simp only
          rw [hset, update_of_ne (by omega)]
          exact hfree u (by omega) (by omega))
        (fun h j h1 h2 ↦ by
          rw [hpaddr₁, update_self, hrow₁ j (by omega)]
          exact hold h j (by omega) (by omega)) with
        ⟨herr, hfresh, hlen⟩ | ⟨m', d', row', hok, hrow, hframe', htab', hpte⟩
      · refine .inl ⟨herr, hfresh, ?_⟩
        have hlen' : m.length < n := hlen
        rw [hr hfresh, List.length_cons]
        omega
      · rw [hpaddr₁, update_self] at hrow
        obtain ⟨hrowi, hrow⟩ := hrow.cons hr hold' hvalid
        refine .inr ⟨m', d', row', hok.trans ?_, hrow, ?_, ?_, fun u ↦ ?_⟩
        · rw [hpaddr₁, hq₁]
          simp only [Kernel.setProc, s₁, update_idem]
          rfl
        · rw [hframe', hq₁]
          exact PageDir.setPte_frame ..
        · rw [htab', hq₁]
          exact PageDir.setPte_tab ..
        · rw [hpte, hq₁]
          simp only
          rw [hset]
          by_cases hu : u = v - 1
          · subst hu
            rw [if_neg (by omega), if_pos (by omega), update_self,
              show i + (v - 1 - (v - 1)) = i by omega, hrowi]
          · rw [update_of_ne hu]
            by_cases h : v - (n + 1) ≤ u ∧ u < v
            · rw [if_pos (by omega), if_pos h,
                show i + 1 + (v - 1 - 1 - u) = i + (v - 1 - u) by omega]
            · rw [if_neg (by omega), if_neg h]

end CS537.Shm
