import CS537.Shm.KernelMap
import Mathlib.Order.Interval.Finset.Nat

/-!
# What the user-memory routines do to an address space

One lemma for each routine of `Vm`. In an address space that `setupkvm` has made the page table of
the user pages exists and the pages to be mapped are absent, so none of them panics: `allocuvm`
maps fresh frames or, when memory runs out, undoes what it has done; `deallocuvm` and `freevm` give
back what is mapped; `copyuvm` copies the private pages and shares the others.

Every lemma also says which frames move between the free list and the address space.
-/

open Finset Function Holding

namespace CS537.Shm

variable {L : Link}

/-- The frame the virtual page `v` is mapped to. -/
def PageDir.frames (d : PageDir) (v : ℕ) : Option ℕ := (d.pte v).map Pte.pa

/-- An address space: the kernel part is that of `setupkvm`, user pages are writable user pages,
and all frames are frames of the allocator. -/
structure Space (L : Link) (d : PageDir) : Prop where
  tab : ∀ x, (d.tab x).isSome ↔ KernelTab x
  high : ∀ v, 160 ≤ v → d.pte v = kernelPte L v
  user : ∀ v, v < 160 → ∀ p, d.pte v = some p → L.Valid p.pa ∧ p.w = true ∧ p.u = true
  valid_frame : L.Valid d.frame
  valid_tab : ∀ x r, d.tab x = some r → L.Valid r

theorem Link.Valid.ne_zero {f : ℕ} (h : L.Valid f) : f ≠ 0 := by
  obtain ⟨-, hle, -⟩ := h
  have h1 := L.text_lt
  have h2 := L.data_le
  omega

namespace Space

variable {d : PageDir}

/-- The page table of the user pages. -/
theorem isSome_tab (h : Space L d) {v : ℕ} (hv : v < 160) : (d.tab (v / 1024)).isSome :=
  (h.tab _).mpr (.inl (by omega))

theorem setPte (h : Space L d) {v : ℕ} (hv : v < 160) {p : Option Pte}
    (hp : ∀ q, p = some q → L.Valid q.pa ∧ q.w = true ∧ q.u = true) : Space L (d.setPte v p) := by
  have hpte := PageDir.setPte_pte d (h.isSome_tab hv) p
  refine ⟨fun x ↦ by rw [PageDir.setPte_tab]; exact h.tab x, fun u hu ↦ ?_, fun u hu q hq ↦ ?_,
    by rw [PageDir.setPte_frame]; exact h.valid_frame,
    fun x r hr ↦ h.valid_tab x r (by rwa [PageDir.setPte_tab] at hr)⟩
  · rw [hpte, update_of_ne (by omega)]
    exact h.high u hu
  · rw [hpte] at hq
    by_cases huv : u = v
    · subst huv
      rw [update_self] at hq
      exact hp q hq
    · rw [update_of_ne huv] at hq
      exact h.user u hu q hq

/-- An address space with the same tables and other user pages. -/
theorem of_pte (h : Space L d) {d' : PageDir} (hframe : d'.frame = d.frame) (htab : d'.tab = d.tab)
    (hhigh : ∀ v, 160 ≤ v → d'.pte v = d.pte v)
    (huser : ∀ v, v < 160 → ∀ p, d'.pte v = some p → L.Valid p.pa ∧ p.w = true ∧ p.u = true) :
    Space L d' :=
  ⟨fun x ↦ by rw [htab]; exact h.tab x, fun v hv ↦ by rw [hhigh v hv]; exact h.high v hv, huser,
    by rw [hframe]; exact h.valid_frame, fun x r hr ↦ h.valid_tab x r (by rwa [htab] at hr)⟩

end Space

theorem mem_of_count {l : List ℕ} {f n : ℕ} (h : l.count f = n) (hn : 0 < n) : f ∈ l :=
  List.count_pos_iff.mp (by omega)

/-- The directory that `setupkvm` makes from allocator frames. -/
theorem Fresh.space {m m' : Freelist} {d : PageDir} (h : Fresh L m m' d)
    (hm : ∀ f ∈ m, L.Valid f) : Space L d ∧ ∀ f ∈ m', L.Valid f := by
  obtain ⟨l, rfl, hlen, hcount⟩ := h.taken
  refine ⟨⟨h.tab, fun v _ ↦ by rw [h.pte], fun v hv p hp ↦ ?_, hm _ (by simp), fun x r hr ↦ ?_⟩,
    fun f hf ↦ hm f (by simp [hf])⟩
  · rw [h.pte, kernelPte_user L hv] at hp
    cases hp
  · have hx : x < 1024 := by
      have hk : KernelTab x := (h.tab x).mp (by rw [hr]; rfl)
      rw [KernelTab] at hk
      omega
    have hpos : 0 < d.tables r := held_pos_iff.mpr ⟨x, mem_range.mpr hx, hr⟩
    have hmem : r ∈ l := mem_of_count (hcount r).symm hpos
    exact hm r (by simp [hmem])

/-! ## `deallocuvm` -/

theorem frames_setPte_of_ne {d : PageDir} {u v : ℕ} (h : (d.tab (v / 1024)).isSome) (hne : u ≠ v)
    (p : Option Pte) : (d.setPte v p).frames u = d.frames u := by
  rw [PageDir.frames, d.setPte_pte h, update_of_ne hne, PageDir.frames]

/-- A change of the entry of `v` does not matter to the pages behind it. -/
theorem filterMap_frames_setPte {d : PageDir} {v : ℕ} (h : (d.tab (v / 1024)).isSome) (n : ℕ)
    (p : Option Pte) : (List.range' (v + 1) n).filterMap (d.setPte v p).frames
      = (List.range' (v + 1) n).filterMap d.frames := by
  refine List.filterMap_congr fun u hu ↦ frames_setPte_of_ne h ?_ p
  have := List.mem_range'_1.mp hu
  omega

/-- The pages `v`, …, `v + n - 1` have been unmapped and their frames put on the free list. -/
structure Freed (L : Link) (n v : ℕ) (m : Freelist) (d : PageDir) (m' : Freelist) (d' : PageDir) :
    Prop where
  frame : d'.frame = d.frame
  tab : d'.tab = d.tab
  pte : ∀ q, d'.pte q = if v ≤ q ∧ q < v + n then none else d.pte q
  freed : ∃ l, m' = l ++ m ∧ (∀ f, l.count f = held (Ico v (v + n)) d.frames f) ∧
    ∀ f ∈ l, L.Valid f
  order : m' = ((List.range' v n).filterMap d.frames).reverse ++ m

theorem Ico_eq_insert (v n : ℕ) : Ico v (v + (n + 1)) = insert v (Ico (v + 1) (v + 1 + n)) := by
  ext q
  simp only [mem_insert, mem_Ico]
  omega

theorem deallocPages_freed {n v : ℕ} (m : Freelist) {d : PageDir} (hd : Space L d)
    (hv : v + n ≤ 160) :
    ∃ m' d', deallocPages L n v m d = .ok (m', d') ∧ Freed L n v m d m' d' := by
  induction n generalizing v m d with
  | zero =>
    refine ⟨m, d, rfl, rfl, rfl, fun q ↦ ?_, ⟨[], rfl, fun f ↦ ?_, by simp⟩, rfl⟩
    · rw [if_neg (by omega)]
    · rw [Nat.add_zero, Ico_self]
      rfl
  | succ n ih =>
    have hsucc := Ico_eq_insert v n
    have hmem : v ∉ Ico (v + 1) (v + 1 + n) := by simp
    -- an absent page is passed over, a present one is freed and its entry cleared
    cases hp : d.pte v with
    | none =>
      obtain ⟨m', d', hok, hout⟩ := ih (v := v + 1) m hd (by omega)
      obtain ⟨l, hl, hcount, hvalid⟩ := hout.freed
      refine ⟨m', d', ?_, hout.frame, hout.tab, fun q ↦ ?_, ⟨l, hl, fun f ↦ ?_, hvalid⟩, ?_⟩
      · rw [deallocPages, hp]
        exact hok
      · rw [hout.pte q]
        by_cases hq : q = v
        · subst hq
          rw [if_neg (by omega), if_pos (by omega), hp]
        · by_cases h : v ≤ q ∧ q < v + (n + 1)
          · rw [if_pos (by omega), if_pos h]
          · rw [if_neg (by omega), if_neg h]
      · rw [hcount, hsucc, held_insert hmem, PageDir.frames, hp]
        simp
      · rw [hout.order, List.range'_succ,
          List.filterMap_cons_none (by rw [PageDir.frames, hp]; rfl)]
    | some p =>
      have hvalidp := (hd.user v (by omega) p hp).1
      have htab := hd.isSome_tab (v := v) (by omega)
      have hset := PageDir.setPte_pte d htab none
      obtain ⟨m', d', hok, hout⟩ := ih (v := v + 1) (p.pa :: m)
        (hd.setPte (v := v) (by omega) (p := none) (by simp)) (by omega)
      obtain ⟨l, hl, hcount, hvalid⟩ := hout.freed
      refine ⟨m', d', ?_, by rw [hout.frame, PageDir.setPte_frame],
        by rw [hout.tab, PageDir.setPte_tab], fun q ↦ ?_, ⟨l ++ [p.pa], ?_, fun f ↦ ?_, ?_⟩, ?_⟩
      · rw [deallocPages, hp]
        simp only [hvalidp.ne_zero, if_false, kfree_of_valid hvalidp]
        exact hok
      · rw [hout.pte q, hset]
        by_cases hq : q = v
        · subst hq
          rw [if_neg (by omega), if_pos (by omega), update_self]
        · rw [update_of_ne hq]
          by_cases h : v ≤ q ∧ q < v + (n + 1)
          · rw [if_pos (by omega), if_pos h]
          · rw [if_neg (by omega), if_neg h]
      · rw [hl, List.append_assoc]
        rfl
      · have hrest : held (Ico (v + 1) (v + 1 + n)) (d.setPte v none).frames f
            = held (Ico (v + 1) (v + 1 + n)) d.frames f := by
          refine held_congr (fun q hq ↦ frames_setPte_of_ne htab ?_ none) f
          rw [mem_Ico] at hq
          omega
        rw [List.count_append, hcount, hrest, hsucc, held_insert hmem, PageDir.frames, hp,
          Option.map_some, cell_some, List.count_singleton]
        simp [Nat.add_comm]
      · intro f hf
        rcases List.mem_append.mp hf with hf | hf
        · exact hvalid f hf
        · rw [List.mem_singleton.mp hf]
          exact hvalidp
      · rw [hout.order, List.range'_succ,
          List.filterMap_cons_some (b := p.pa) (by rw [PageDir.frames, hp]; rfl),
          filterMap_frames_setPte htab, List.reverse_cons, List.append_assoc]
        rfl

namespace Freed

variable {n v : ℕ} {m m' : Freelist} {d d' : PageDir}

theorem space (h : Freed L n v m d m' d') (hd : Space L d) (hv : v + n ≤ 160) : Space L d' := by
  refine hd.of_pte h.frame h.tab (fun q hq ↦ ?_) (fun q hq p hp ↦ ?_)
  · rw [h.pte, if_neg (by omega)]
  · rw [h.pte] at hp
    split at hp
    · cases hp
    · exact hd.user q hq p hp

theorem valid (h : Freed L n v m d m' d') (hm : ∀ f ∈ m, L.Valid f) : ∀ f ∈ m', L.Valid f := by
  obtain ⟨l, rfl, -, hvalid⟩ := h.freed
  intro f hf
  exact (List.mem_append.mp hf).elim (hvalid f) (hm f)

theorem count (h : Freed L n v m d m' d') (f : ℕ) :
    m'.count f = m.count f + held (Ico v (v + n)) d.frames f := by
  obtain ⟨l, rfl, hcount, -⟩ := h.freed
  rw [List.count_append, hcount, Nat.add_comm]

end Freed

theorem pageUp_mono {a b : ℕ} (h : a ≤ b) : pageUp a ≤ pageUp b := by
  simp only [pageUp, pgsize]
  omega

theorem pageUp_le {a : ℕ} (h : a ≤ usertop) : pageUp a ≤ 160 := by
  simp only [usertop, pageUp, pgsize] at *
  omega

theorem pageUp_le_div {a b : ℕ} (h : a ≤ b) (hb : b % pgsize = 0) : pageUp a ≤ b / pgsize := by
  simp only [pageUp, pgsize] at *
  omega

theorem deallocuvm_freed {oldsz newsz : ℕ} (m : Freelist) {d : PageDir} (hd : Space L d)
    (hlt : newsz < oldsz) (hle : oldsz ≤ usertop) :
    ∃ m' d', deallocuvm L oldsz newsz m d = .ok (m', d', newsz) ∧
      Freed L (rounds (pageUp newsz) oldsz) (pageUp newsz) m d m' d' := by
  have h1 := pageUp_mono (Nat.le_of_lt hlt)
  have h2 := pageUp_le hle
  have hv : pageUp newsz + rounds (pageUp newsz) oldsz ≤ 160 := by
    rw [rounds]
    omega
  obtain ⟨m', d', hok, hout⟩ := deallocPages_freed m hd hv
  refine ⟨m', d', ?_, hout⟩
  rw [deallocuvm, if_neg (by omega), hok]
  rfl

/-! ## `freevm` -/

theorem toFinset_range (n : ℕ) : (List.range n).toFinset = range n := by
  ext x
  simp

theorem freeTables_freed {xs : List ℕ} (hxs : xs.Nodup) (m : Freelist) {d : PageDir}
    (hd : ∀ x r, d.tab x = some r → L.Valid r) :
    ∃ l, freeTables L d xs m = .ok (l ++ m) ∧ (∀ f, l.count f = held xs.toFinset d.tab f) ∧
      ∀ f ∈ l, L.Valid f := by
  induction xs generalizing m with
  | nil => exact ⟨[], rfl, fun f ↦ rfl, by simp⟩
  | cons x xs ih =>
    have hmem : x ∉ xs.toFinset := by simpa using (List.nodup_cons.mp hxs).1
    cases hx : d.tab x with
    | none =>
      obtain ⟨l, hok, hcount, hvalid⟩ := ih (List.nodup_cons.mp hxs).2 m
      refine ⟨l, by rw [freeTables, hx]; exact hok, fun f ↦ ?_, hvalid⟩
      rw [hcount, List.toFinset_cons, held_insert hmem, hx]
      simp
    | some r =>
      obtain ⟨l, hok, hcount, hvalid⟩ := ih (List.nodup_cons.mp hxs).2 (r :: m)
      refine ⟨l ++ [r], ?_, fun f ↦ ?_, fun f hf ↦ ?_⟩
      · rw [freeTables, hx]
        simp only [kfree_of_valid (hd x r hx), List.append_assoc]
        exact hok
      · rw [List.count_append, hcount, List.toFinset_cons, held_insert hmem, hx, cell_some,
          List.count_singleton]
        simp [Nat.add_comm]
      · rcases List.mem_append.mp hf with hf | hf
        · exact hvalid f hf
        · rw [List.mem_singleton.mp hf]
          exact hd x r hx

/-- Each table goes in front of those before it. -/
theorem freeTables_order (xs : List ℕ) (m : Freelist) {d : PageDir}
    (hd : ∀ x r, d.tab x = some r → L.Valid r) :
    freeTables L d xs m = .ok ((xs.filterMap d.tab).reverse ++ m) := by
  induction xs generalizing m with
  | nil => rfl
  | cons x xs ih =>
    rw [freeTables]
    cases hx : d.tab x with
    | none => rw [List.filterMap_cons_none hx, ih]
    | some r =>
      simp only [kfree_of_valid (hd x r hx), ok_bind]
      rw [List.filterMap_cons_some hx, List.reverse_cons, List.append_assoc, ih]
      rfl

/-- The first loop of `freevm`. -/
theorem deallocuvm_all {sz : ℕ} (m : Freelist) {d : PageDir} (hd : Space L d)
    (hsz : sz ≤ usertop) :
    ∃ m₁ d₁ n, deallocuvm L sz 0 m d = .ok (m₁, d₁, n) ∧ Freed L (pageUp sz) 0 m d m₁ d₁ := by
  -- `deallocuvm` returns at once when there is nothing to shrink
  by_cases h : 0 < sz
  · obtain ⟨m₁, d₁, hok, hout⟩ := deallocuvm_freed m hd h hsz
    exact ⟨m₁, d₁, 0, hok, hout⟩
  · obtain rfl : sz = 0 := by omega
    refine ⟨m, d, 0, rfl, rfl, rfl, fun q ↦ ?_, ⟨[], rfl, fun f ↦ rfl, by simp⟩, rfl⟩
    rw [if_neg (by rintro ⟨-, h⟩; simp [pageUp, pgsize] at h)]

/-- `freevm` gives back the directory, the page tables and the pages below `PGROUNDUP(sz)`. -/
theorem freevm_freed {sz : ℕ} (m : Freelist) {d : PageDir} (hd : Space L d) (hsz : sz ≤ usertop) :
    ∃ l, freevm L sz m d = .ok (l ++ m) ∧ (∀ f ∈ l, L.Valid f) ∧
      ∀ f, l.count f = [d.frame].count f + d.tables f + held (range (pageUp sz)) d.frames f := by
  obtain ⟨m₁, d₁, n, hdealloc, hfreed⟩ := deallocuvm_all m hd hsz
  obtain ⟨l₁, rfl, hcount₁, hvalid₁⟩ := hfreed.freed
  obtain ⟨l₂, htables, hcount₂, hvalid₂⟩ := freeTables_freed (List.nodup_range (n := 1024))
    (l₁ ++ m) (d := d₁) (L := L) (by rw [hfreed.tab]; exact hd.valid_tab)
  have hframe : L.Valid d₁.frame := by
    rw [hfreed.frame]
    exact hd.valid_frame
  refine ⟨d.frame :: (l₂ ++ l₁), ?_, ?_, fun f ↦ ?_⟩
  · rw [freevm, if_neg hd.valid_frame.ne_zero, hdealloc]
    rw [ok_bind]
    simp only
    rw [htables, ok_bind, kfree_of_valid hframe, hfreed.frame, List.cons_append,
      List.append_assoc]
  · intro f hf
    rcases List.mem_cons.mp hf with rfl | hf
    · exact hd.valid_frame
    · exact (List.mem_append.mp hf).elim (hvalid₂ f) (hvalid₁ f)
  · rw [← List.singleton_append, List.count_append, List.count_append, hcount₁, hcount₂,
      toFinset_range,
      hfreed.tab, Nat.zero_add, Nat.Ico_zero_eq_range]
    rw [PageDir.tables]
    omega

/-- The pages end up behind the twelve page tables and these behind the directory. -/
theorem freevm_order {sz : ℕ} (m : Freelist) {d : PageDir} (hd : Space L d) (hsz : sz ≤ usertop) :
    ∃ l, l.length = 12 ∧ freevm L sz m d = .ok (d.frame :: (l ++
      (((List.range' 0 (pageUp sz)).filterMap d.frames).reverse ++ m))) := by
  obtain ⟨m₁, d₁, n, hdealloc, hfreed⟩ := deallocuvm_all m hd hsz
  have htables := freeTables_order (L := L) (List.range 1024) m₁ (d := d₁)
    (by rw [hfreed.tab]; exact hd.valid_tab)
  have hframe : L.Valid d₁.frame := by
    rw [hfreed.frame]
    exact hd.valid_frame
  refine ⟨((List.range 1024).filterMap d.tab).reverse, ?_, ?_⟩
  · have hcount : (List.range 1024).countP (fun x ↦ (d.tab x).isSome)
        = (List.range 1024).countP fun x ↦ decide (KernelTab x) :=
      List.countP_congr fun x _ ↦ by rw [hd.tab x, decide_eq_true_iff]
    rw [List.length_reverse, List.length_filterMap_eq_countP, hcount]
    decide +kernel
  · rw [freevm, if_neg hd.valid_frame.ne_zero, hdealloc, ok_bind]
    simp only
    rw [htables, ok_bind, kfree_of_valid hframe, hfreed.frame, hfreed.order, hfreed.tab]

/-! ## `allocuvm` -/

/-- The pages from `v` on have been mapped to the frames `l`, taken from the free list. -/
structure Mapped (v : ℕ) (l : List ℕ) (m : Freelist) (d : PageDir) (m' : Freelist) (d' : PageDir) :
    Prop where
  frame : d'.frame = d.frame
  tab : d'.tab = d.tab
  pte : ∀ q, d'.pte q =
    if v ≤ q ∧ q < v + l.length then (l[q - v]?).map fun r ↦ ⟨r, true, true⟩ else d.pte q
  taken : m = l ++ m'

theorem Mapped.refl (v : ℕ) (m : Freelist) (d : PageDir) : Mapped v [] m d m d :=
  ⟨rfl, rfl, fun q ↦ by rw [if_neg (by simp)], rfl⟩

/-- One more page in front. -/
theorem Mapped.cons {v r : ℕ} {l : List ℕ} {m m' : Freelist} {d d' : PageDir}
    (htab : (d.tab (v / 1024)).isSome)
    (h : Mapped (v + 1) l m (d.setPte v (some ⟨r, true, true⟩)) m' d') :
    Mapped v (r :: l) (r :: m) d m' d' := by
  refine ⟨by rw [h.frame, PageDir.setPte_frame], by rw [h.tab, PageDir.setPte_tab], fun q ↦ ?_,
    by rw [h.taken]; rfl⟩
  rw [h.pte, PageDir.setPte_pte d htab, List.length_cons]
  by_cases hq : q = v
  · subst hq
    rw [if_neg (by omega), if_pos (by omega), update_self]
    simp
  · rw [update_of_ne hq]
    by_cases hin : v ≤ q ∧ q < v + (l.length + 1)
    · rw [if_pos (by omega), if_pos hin, show q - v = q - (v + 1) + 1 by omega,
        List.getElem?_cons_succ]
    · rw [if_neg (by omega), if_neg hin]

theorem Mapped.space {v : ℕ} {l : List ℕ} {m m' : Freelist} {d d' : PageDir}
    (h : Mapped v l m d m' d') (hd : Space L d) (hv : v + l.length ≤ 160)
    (hm : ∀ f ∈ m, L.Valid f) : Space L d' := by
  refine hd.of_pte h.frame h.tab (fun q hq ↦ ?_) (fun q hq p hp ↦ ?_)
  · rw [h.pte, if_neg (by omega)]
  · rw [h.pte] at hp
    split at hp
    · obtain ⟨r, hr, rfl⟩ := Option.map_eq_some_iff.mp hp
      refine ⟨hm r ?_, rfl, rfl⟩
      rw [h.taken]
      exact List.mem_append_left _ (List.mem_of_getElem? hr)
    · exact hd.user q hq p hp

/-- Mapped pages hold exactly the frames they were given. -/
theorem Mapped.held_frames {v : ℕ} {l : List ℕ} {m m' : Freelist} {d d' : PageDir}
    (h : Mapped v l m d m' d') (f : ℕ) : held (Ico v (v + l.length)) d'.frames f = l.count f := by
  have hframes : ∀ q ∈ Ico v (v + l.length), d'.frames q = l[q - v]? := by
    intro q hq
    rw [PageDir.frames, h.pte, if_pos (mem_Ico.mp hq), Option.map_map]
    exact Option.map_id'
  rw [held_congr hframes]
  -- by induction on the frames: the first one is at page `v`
  clear hframes h
  induction l generalizing v with
  | nil => simp
  | cons r l ih =>
    have hrest : held (Ico (v + 1) (v + 1 + l.length)) (fun q ↦ (r :: l)[q - v]?) f
        = held (Ico (v + 1) (v + 1 + l.length)) (fun q ↦ l[q - (v + 1)]?) f := by
      refine held_congr (fun q hq ↦ ?_) f
      rw [mem_Ico] at hq
      rw [show q - v = q - (v + 1) + 1 by omega, List.getElem?_cons_succ]
    rw [List.length_cons, Ico_eq_insert, held_insert (by simp), hrest, ih, Nat.sub_self,
      List.getElem?_cons_zero, cell_some, List.count_cons]
    simp [Nat.add_comm]

/-- The same over a larger range of pages that were absent before. -/
theorem Mapped.held_frames_of_le {v e : ℕ} {l : List ℕ} {m m' : Freelist} {d d' : PageDir}
    (h : Mapped v l m d m' d') (hle : v + l.length ≤ e)
    (hfree : ∀ q, v ≤ q → q < e → d.pte q = none) (f : ℕ) :
    held (Ico v e) d'.frames f = l.count f := by
  have hrest : held (Ico (v + l.length) e) d'.frames f = 0 := by
    refine held_eq_zero_of_none (fun q hq ↦ ?_) f
    rw [mem_Ico] at hq
    rw [PageDir.frames, h.pte, if_neg (by omega), hfree q (by omega) hq.2]
    rfl
  rw [← Ico_union_Ico_eq_Ico (Nat.le_add_right v l.length) hle,
    held_union (Ico_disjoint_Ico_consecutive _ _ _), h.held_frames, hrest, Nat.add_zero]

theorem allocPages_mapped {n v : ℕ} (m : Freelist) {d : PageDir} (hd : Space L d)
    (hv : v + n ≤ 160) (hfree : ∀ q, v ≤ q → q < v + n → d.pte q = none)
    (hm : ∀ f ∈ m, L.Valid f) :
    ∃ m' d' l ok, allocPages n v m d = .ok (m', d', l, ok) ∧ Mapped v l m d m' d' ∧
      (ok = true → l.length = n) ∧ (ok = false → l.length < n ∧ m' = []) := by
  induction n generalizing v m d with
  | zero => exact ⟨m, d, [], true, rfl, .refl v m d, by simp, by simp⟩
  | succ n ih =>
    -- the loop stops when the free list is empty
    cases m with
    | nil => exact ⟨[], d, [], false, rfl, .refl v [] d, by simp, by simp⟩
    | cons r m =>
      have htab := hd.isSome_tab (v := v) (by omega)
      have hset := PageDir.setPte_pte d htab (some ⟨r, true, true⟩)
      have hspace := hd.setPte (v := v) (by omega) (p := some ⟨r, true, true⟩)
        (fun q hq ↦ by cases hq; exact ⟨hm r (by simp), rfl, rfl⟩)
      obtain ⟨m', d', l, ok, hok, hout, htrue, hfalse⟩ := ih (v := v + 1) m hspace (by omega)
        (fun q h1 h2 ↦ by rw [hset, update_of_ne (by omega)]; exact hfree q (by omega) (by omega))
        (fun f hf ↦ hm f (by simp [hf]))
      refine ⟨m', d', r :: l, ok, ?_, hout.cons htab, fun h ↦ by simp [htrue h], fun h ↦ ?_⟩
      · have hmap := mappages_one r (w := true) (u := true) htab
          (hfree v (by omega) (by omega)) m
        rw [allocPages, kalloc]
        simp only [hmap]
        change (allocPages n (v + 1) m (d.setPte v (some ⟨r, true, true⟩))).bind _ = _
        rw [hok]
        rfl
      · exact ⟨by rw [List.length_cons]; exact Nat.succ_lt_succ (hfalse h).1, (hfalse h).2⟩

/-- What `allocuvm` comes to: a request above `shmtop` is refused, a request to shrink leaves the
size, and else the pages are mapped or nothing has changed but the order of the free list. -/
inductive AllocOutcome (shmtop oldsz newsz : ℕ) (m : Freelist) (d : PageDir) : Grown → Prop
  | high : shmtop < newsz → AllocOutcome shmtop oldsz newsz m d ⟨m, d, [], 0⟩
  | shrink : newsz ≤ shmtop → newsz < oldsz → AllocOutcome shmtop oldsz newsz m d ⟨m, d, [], oldsz⟩
  | grown {m' : Freelist} {d' : PageDir} {l : List ℕ} : newsz ≤ shmtop → oldsz ≤ newsz →
      Mapped (pageUp oldsz) l m d m' d' → l.length = pageUp newsz - pageUp oldsz →
      AllocOutcome shmtop oldsz newsz m d ⟨m', d', l, newsz⟩
  | full {m' : Freelist} {d' : PageDir} {l : List ℕ} : newsz ≤ shmtop → oldsz < newsz →
      m.length < pageUp newsz - pageUp oldsz → d'.frame = d.frame → d'.tab = d.tab →
      d'.pte = d.pte → (∀ f, m'.count f = m.count f) →
        AllocOutcome shmtop oldsz newsz m d ⟨m', d', l, 0⟩

theorem allocuvm_outcome {shmtop oldsz : ℕ} (newsz : ℕ) {m : Freelist} {d : PageDir}
    (hd : Space L d)
    (hm : ∀ f ∈ m, L.Valid f) (htop : shmtop ≤ usertop)
    (hfree : ∀ q, pageUp oldsz ≤ q → q < pageUp newsz → newsz ≤ shmtop → d.pte q = none) :
    ∃ g, allocuvm L shmtop oldsz newsz m d = .ok g ∧ AllocOutcome shmtop oldsz newsz m d g := by
  by_cases hhigh : shmtop < newsz
  · exact ⟨_, if_pos hhigh, .high hhigh⟩
  by_cases hshrink : newsz < oldsz
  · refine ⟨_, ?_, .shrink (by omega) hshrink⟩
    rw [allocuvm, if_neg hhigh, if_pos hshrink]
    rfl
  have hle := pageUp_le (show newsz ≤ usertop by omega)
  have hmono := pageUp_mono (show oldsz ≤ newsz by omega)
  have hrange : pageUp oldsz + rounds (pageUp oldsz) newsz = pageUp newsz := by
    rw [rounds]
    omega
  obtain ⟨m', d', l, ok, hok, hout, htrue, hfalse⟩ := allocPages_mapped m hd
    (v := pageUp oldsz) (n := rounds (pageUp oldsz) newsz) (by omega)
    (fun q h1 h2 ↦ hfree q h1 (by omega) (by omega)) hm
  rw [allocuvm, if_neg hhigh, if_neg hshrink, hok, ok_bind]
  cases ok with
  | true => exact ⟨_, rfl, .grown (by omega) (by omega) hout (htrue rfl)⟩
  | false =>
    obtain ⟨hlen, rfl⟩ := hfalse rfl
    rw [rounds] at hlen
    have hlt : oldsz < newsz := by
      by_contra h
      have : oldsz = newsz := by omega
      rw [this] at hlen
      omega
    have hspace := hout.space hd (by omega) hm
    obtain ⟨m₂, d₂, hdealloc, hfreed⟩ :=
      deallocuvm_freed [] hspace hlt (show newsz ≤ usertop by omega)
    refine ⟨⟨m₂, d₂, l, 0⟩, ?_, .full (by omega) hlt ?_ (hfreed.frame.trans hout.frame)
      (hfreed.tab.trans hout.tab) ?_ fun f ↦ ?_⟩
    · simp only [hdealloc]
      rfl
    · rw [hout.taken, List.append_nil]
      exact hlen
    · funext q
      rw [hfreed.pte, hrange]
      by_cases hq : pageUp oldsz ≤ q ∧ q < pageUp newsz
      · rw [if_pos hq, hfree q hq.1 hq.2 (by omega)]
      · rw [if_neg hq, hout.pte, if_neg (by omega)]
    · rw [hfreed.count, hrange, hout.held_frames_of_le (by omega)
        (fun q h1 h2 ↦ hfree q h1 h2 (by omega)), hout.taken, List.append_nil]
      simp

/-! ## Counting the frames of an address space -/

theorem held_split {v w e : ℕ} (hvw : v ≤ w) (hwe : w ≤ e) (g : ℕ → Option ℕ) (f : ℕ) :
    held (range e) g f = held (range v) g f + held (Ico v w) g f + held (Ico w e) g f := by
  rw [range_eq_Ico, range_eq_Ico, ← held_union (Ico_disjoint_Ico_consecutive _ _ _),
    Ico_union_Ico_eq_Ico (Nat.zero_le v) hvw, ← held_union (Ico_disjoint_Ico_consecutive _ _ _),
    Ico_union_Ico_eq_Ico (Nat.zero_le w) hwe]

theorem frames_congr {d d' : PageDir} {v : ℕ} (h : d'.pte v = d.pte v) :
    d'.frames v = d.frames v := by
  rw [PageDir.frames, h, PageDir.frames]

theorem tables_congr {d d' : PageDir} (h : d'.tab = d.tab) : d'.tables = d.tables := by
  funext f
  rw [PageDir.tables, h, PageDir.tables]

/-- Two address spaces that agree outside the pages from `v` to `w`. -/
theorem held_frames_of_agree (d d' : PageDir) {v w e : ℕ} (hvw : v ≤ w) (hwe : w ≤ e)
    (h : ∀ q, ¬(v ≤ q ∧ q < w) → d'.pte q = d.pte q) (f : ℕ) :
    held (range e) d'.frames f + held (Ico v w) d.frames f
      = held (range e) d.frames f + held (Ico v w) d'.frames f := by
  have hlow : held (range v) d'.frames f = held (range v) d.frames f :=
    held_congr (fun q hq ↦ frames_congr (h q (by rw [mem_range] at hq; omega))) f
  have hhigh : held (Ico w e) d'.frames f = held (Ico w e) d.frames f :=
    held_congr (fun q hq ↦ frames_congr (h q (by rw [mem_Ico] at hq; omega))) f
  rw [held_split hvw hwe, held_split hvw hwe d.frames, hlow, hhigh]
  omega

/-- Mapping absent pages moves frames from the free list into the address space. -/
theorem Mapped.count {v e : ℕ} {l : List ℕ} {m m' : Freelist} {d d' : PageDir}
    (h : Mapped v l m d m' d') (he : v + l.length ≤ e)
    (hfree : ∀ q, v ≤ q → q < v + l.length → d.pte q = none) (f : ℕ) :
    m'.count f + held (range e) d'.frames f = m.count f + held (range e) d.frames f := by
  have hagree := held_frames_of_agree d d' (Nat.le_add_right v l.length) he
    (fun q hq ↦ by rw [h.pte, if_neg hq]) f
  have hnone : held (Ico v (v + l.length)) d.frames f = 0 := by
    refine held_eq_zero_of_none (fun q hq ↦ ?_) f
    rw [mem_Ico] at hq
    rw [PageDir.frames, hfree q hq.1 hq.2]
    rfl
  rw [h.held_frames, hnone] at hagree
  rw [h.taken, List.count_append]
  omega

/-- Unmapping pages moves frames from the address space to the free list. -/
theorem Freed.count_range {n v e : ℕ} {m m' : Freelist} {d d' : PageDir}
    (h : Freed L n v m d m' d') (he : v + n ≤ e) (f : ℕ) :
    m'.count f + held (range e) d'.frames f = m.count f + held (range e) d.frames f := by
  have hagree := held_frames_of_agree d d' (Nat.le_add_right v n) he
    (fun q hq ↦ by rw [h.pte, if_neg hq]) f
  have hnone : held (Ico v (v + n)) d'.frames f = 0 := by
    refine held_eq_zero_of_none (fun q hq ↦ ?_) f
    rw [mem_Ico] at hq
    rw [PageDir.frames, h.pte, if_pos hq]
    rfl
  have hcount := h.count f
  omega

/-! ## `copyuvm` -/

theorem copyPages_outcome {src : PageDir} (hsrc : Space L src) {n v : ℕ} (m : Freelist)
    {d : PageDir} (hd : Space L d) (hv : v + n ≤ 160)
    (hfree : ∀ q, v ≤ q → q < v + n → d.pte q = none) (hm : ∀ f ∈ m, L.Valid f) :
    ((∃ e, copyPages src n v m d = .error e) ∧ ∃ q, v ≤ q ∧ q < v + n ∧ src.pte q = none) ∨
    ∃ m' d' l ok, copyPages src n v m d = .ok (m', d', ok) ∧ Mapped v l m d m' d' ∧
      (ok = true → l.length = n) ∧ (ok = false → l.length < n ∧ m' = []) := by
  induction n generalizing v m d with
  | zero => exact .inr ⟨m, d, [], true, rfl, .refl v m d, by simp, by simp⟩
  | succ n ih =>
    have hlookup := lookup_of_tab (hsrc.isSome_tab (v := v) (by omega))
    cases hp : src.pte v with
    | none =>
      refine .inl ⟨⟨"copyuvm: page not present", ?_⟩, v, by omega, by omega, hp⟩
      rw [copyPages, hlookup, hp]
      rfl
    | some p =>
      cases m with
      | nil =>
        refine .inr ⟨[], d, [], false, ?_, .refl v [] d, by simp, by simp⟩
        rw [copyPages, hlookup, hp]
        rfl
      | cons r m =>
        have htab := hd.isSome_tab (v := v) (by omega)
        have hset := PageDir.setPte_pte d htab (some ⟨r, true, true⟩)
        have hspace := hd.setPte (v := v) (by omega) (p := some ⟨r, true, true⟩)
          (fun q hq ↦ by cases hq; exact ⟨hm r (by simp), rfl, rfl⟩)
        have hstep : copyPages src (n + 1) v (r :: m) d
            = copyPages src n (v + 1) m (d.setPte v (some ⟨r, true, true⟩)) := by
          have hmap := mappages_one r (w := true) (u := true) htab
            (hfree v (by omega) (by omega)) m
          rw [copyPages, hlookup, hp]
          simp only [kalloc, hmap]
          rfl
        rcases ih (v := v + 1) m hspace (by omega)
          (fun q h1 h2 ↦ by rw [hset, update_of_ne (by omega)]; exact hfree q (by omega) (by omega))
          (fun f hf ↦ hm f (by simp [hf])) with
          ⟨⟨e, he⟩, q, h1, h2, h3⟩ | ⟨m', d', l, ok, hok, hout,
          htrue, hfalse⟩
        · exact .inl ⟨⟨e, hstep.trans he⟩, q, by omega, by omega, h3⟩
        · refine .inr ⟨m', d', r :: l, ok, hstep.trans hok, hout.cons htab,
            fun h ↦ by simp [htrue h],
            fun h ↦ ⟨?_, (hfalse h).2⟩⟩
          rw [List.length_cons]
          exact Nat.succ_lt_succ (hfalse h).1

/-- Sharing present pages takes no memory and does not fail. -/
theorem sharePages_outcome {src : PageDir} (hsrc : Space L src) {n v : ℕ} (m : Freelist)
    {d : PageDir} (hd : Space L d) (hv : v + n ≤ 160)
    (hfree : ∀ q, v ≤ q → q < v + n → d.pte q = none)
    (hpres : ∀ q, v ≤ q → q < v + n → (src.pte q).isSome) :
    ∃ d', sharePages src n v m d = .ok (m, d', true) ∧ d'.frame = d.frame ∧ d'.tab = d.tab ∧
      ∀ q, d'.pte q = if v ≤ q ∧ q < v + n then src.pte q else d.pte q := by
  induction n generalizing v d with
  | zero => exact ⟨d, rfl, rfl, rfl, fun q ↦ by rw [if_neg (by omega)]⟩
  | succ n ih =>
    obtain ⟨p, hp⟩ := Option.isSome_iff_exists.mp (hpres v (by omega) (by omega))
    obtain ⟨hvalid, hw, hu⟩ := hsrc.user v (by omega) p hp
    have hpeq : p = ⟨p.pa, true, true⟩ := by
      conv_lhs => rw [show p = ⟨p.pa, p.w, p.u⟩ from rfl, hw, hu]
    have htab := hd.isSome_tab (v := v) (by omega)
    have hset := PageDir.setPte_pte d htab (some ⟨p.pa, true, true⟩)
    have hspace := hd.setPte (v := v) (by omega) (p := some ⟨p.pa, true, true⟩)
      (fun q hq ↦ by cases hq; exact ⟨hvalid, rfl, rfl⟩)
    obtain ⟨d', hok, hframe, htab', hpte⟩ := ih (v := v + 1) hspace (by omega)
      (fun q h1 h2 ↦ by rw [hset, update_of_ne (by omega)]; exact hfree q (by omega) (by omega))
      (fun q h1 h2 ↦ hpres q (by omega) (by omega))
    refine ⟨d', ?_, by rw [hframe, PageDir.setPte_frame], by rw [htab', PageDir.setPte_tab],
      fun q ↦ ?_⟩
    · have hmap := mappages_one p.pa (w := true) (u := true) htab
        (hfree v (by omega) (by omega)) m
      rw [sharePages, lookup_of_tab (hsrc.isSome_tab (v := v) (by omega)), hp]
      simp only [hmap]
      exact hok
    · rw [hpte, hset]
      by_cases hq : q = v
      · subst hq
        rw [if_neg (by omega), if_pos (by omega), update_self, hp, ← hpeq]
      · rw [update_of_ne hq]
        by_cases h : v ≤ q ∧ q < v + (n + 1)
        · rw [if_pos (by omega), if_pos h]
        · rw [if_neg (by omega), if_neg h]

/-- A copy of `src` made by `copyuvm`: the pages below `PGROUNDUP(sz)` in fresh frames, the pages
from `shmtop` on in the same frames. -/
structure Copied (L : Link) (shmtop sz : ℕ) (src : PageDir) (m m' : Freelist) (d : PageDir) :
    Prop where
  space : Space L d
  copied : ∀ q, q < pageUp sz → (d.pte q).isSome
  shared : ∀ q, shmtop / pgsize ≤ q → q < 160 → d.pte q = src.pte q
  gap : ∀ q, pageUp sz ≤ q → q < shmtop / pgsize → d.pte q = none
  valid : ∀ f ∈ m', L.Valid f
  count : ∀ f, m'.count f + [d.frame].count f + d.tables f + held (range (pageUp sz)) d.frames f
    = m.count f
  length : m.length = m'.length + 13 + pageUp sz

/-- What the `copyuvm` of a `fork` comes to: a panic when a private page is absent, 0 when memory
is short, and else a copy. -/
inductive CopyOutcome (L : Link) (shmtop sz : ℕ) (src : PageDir) (m : Freelist) :
    Except String (Freelist × Option PageDir) → Prop
  | panic {e : String} {q : ℕ} : q < pageUp sz → src.pte q = none →
      CopyOutcome L shmtop sz src m (.error e)
  | fail {m' : Freelist} : m.length < 13 + pageUp sz → (∀ f, m'.count f ≤ m.count f) →
      (∀ f ∈ m', L.Valid f) → CopyOutcome L shmtop sz src m (.ok (m', none))
  | copied {m' : Freelist} {d : PageDir} : Copied L shmtop sz src m m' d →
      CopyOutcome L shmtop sz src m (.ok (m', some d))

/-- The same with both ways to run short of memory. `setupkvm` keeps the frames it has got hold of;
a failure after it gives everything back. -/
inductive CopyResult (L : Link) (shmtop sz : ℕ) (src : PageDir) (m : Freelist) :
    Except String (Freelist × Option PageDir) → Prop
  | panic {e : String} {q : ℕ} : q < pageUp sz → src.pte q = none →
      CopyResult L shmtop sz src m (.error e)
  | lost : m.length < 13 → CopyResult L shmtop sz src m (.ok ([], none))
  | undone {m' : Freelist} : 13 ≤ m.length → m.length < 13 + pageUp sz →
      (∀ f, m'.count f = m.count f) → (∀ f ∈ m', L.Valid f) →
      CopyResult L shmtop sz src m (.ok (m', none))
  | copied {m' : Freelist} {d : PageDir} : Copied L shmtop sz src m m' d →
      CopyResult L shmtop sz src m (.ok (m', some d))

theorem copyuvm_result {shmtop sz : ℕ} {src : PageDir} {m : Freelist} (hsrc : Space L src)
    (hm : ∀ f ∈ m, L.Valid f) (hsz : sz ≤ shmtop) (htop : shmtop ≤ usertop)
    (halign : shmtop % pgsize = 0)
    (hpres : ∀ q, shmtop / pgsize ≤ q → q < 160 → (src.pte q).isSome) :
    CopyResult L shmtop sz src m (copyuvm L sz shmtop sz src m) := by
  have hup : pageUp sz ≤ shmtop / pgsize := by
    simp only [pageUp, pgsize] at *
    omega
  have h160 : shmtop / pgsize ≤ 160 := by
    simp only [pgsize, usertop] at *
    omega
  have hn : rounds 0 sz = pageUp sz := Nat.sub_zero _
  rw [copyuvm]
  rcases setupkvm_outcome L m with ⟨hsetup, hlen⟩ | ⟨m₁, d₁, hsetup, hfresh⟩
  · rw [hsetup]
    exact .lost hlen
  rw [hsetup, ok_bind]
  obtain ⟨hspace₁, hm₁⟩ := hfresh.space hm
  have hlen₁ := hfresh.length
  have hfree₁ : ∀ q, q < 160 → d₁.pte q = none := fun q hq ↦ by
    rw [hfresh.pte]
    exact kernelPte_user L hq
  rcases copyPages_outcome hsrc (n := rounds 0 sz) (v := 0) m₁ hspace₁ (by omega)
    (fun q _ h ↦ hfree₁ q (by omega)) hm₁ with ⟨⟨e, he⟩, q, -, h2, h3⟩ | ⟨m₂, d₂, l, ok, hok, hout,
    htrue, hfalse⟩
  · simp only [he]
    exact .panic (by omega) h3
  have hspace₂ : Space L d₂ := by
    refine hout.space hspace₁ ?_ hm₁
    cases ok with
    | true => rw [htrue rfl]; omega
    | false => have := (hfalse rfl).1; omega
  have hvalid₂ : ∀ f ∈ m₂, L.Valid f := fun f hf ↦ hm₁ f (by rw [hout.taken]; simp [hf])
  have hcount : ∀ f, m₂.count f + [d₂.frame].count f + d₂.tables f + l.count f = m.count f := by
    intro f
    have h1 := hfresh.count f
    have h2 : m₁.count f = l.count f + m₂.count f := by rw [hout.taken, List.count_append]
    have h3 : d₂.tables f = d₁.tables f := by rw [PageDir.tables, hout.tab, PageDir.tables]
    rw [h3, hout.frame]
    omega
  simp only [hok, ok_bind]
  have hheld : ∀ f, held (range (pageUp sz)) d₂.frames f = l.count f := by
    refine fun f ↦ ?_
    rw [range_eq_Ico]
    refine hout.held_frames_of_le ?_ (fun q _ hq ↦ hfree₁ q (by omega)) f
    cases ok with
    | true => rw [htrue rfl]; omega
    | false => have := (hfalse rfl).1; omega
  cases ok with
  | false =>
    obtain ⟨l', hfreevm, hvalid', hcount'⟩ := freevm_freed m₂ hspace₂ (show sz ≤ usertop by omega)
    simp only [hfreevm, ok_bind]
    refine .undone (by omega) ?_ (fun f ↦ ?_) (fun f hf ↦ ?_)
    · have := (hfalse rfl).1
      have : m₁.length = l.length := by rw [hout.taken, (hfalse rfl).2, List.append_nil]
      omega
    · have h1 := hcount f
      rw [List.count_append, hcount', hheld]
      omega
    · exact (List.mem_append.mp hf).elim (hvalid' f) (hvalid₂ f)
  | true =>
    have hlen₂ := htrue rfl
    rw [hn] at hlen₂
    have hround : rounds (shmtop / pgsize) usertop = 160 - shmtop / pgsize := rfl
    obtain ⟨d, hshare, hframe, htab, hpte⟩ := sharePages_outcome hsrc
      (n := rounds (shmtop / pgsize) usertop) (v := shmtop / pgsize) m₂ hspace₂ (by omega)
      (fun q h1 h2 ↦ by rw [hout.pte, if_neg (by omega)]; exact hfree₁ q (by omega))
      (fun q h1 h2 ↦ hpres q h1 (by omega))
    simp only [hshare, ok_bind]
    have hlow : ∀ q, q < shmtop / pgsize → d.pte q = d₂.pte q := fun q hq ↦ by
      rw [hpte, if_neg (by omega)]
    have hprivate : ∀ f, held (range (pageUp sz)) d.frames f = l.count f := by
      intro f
      have hsame : held (range (pageUp sz)) d.frames f = held (range (pageUp sz)) d₂.frames f := by
        refine held_congr (fun q hq ↦ ?_) f
        rw [mem_range] at hq
        rw [PageDir.frames, hlow q (by omega), PageDir.frames]
      rw [hsame, hheld]
    refine .copied ⟨?_, fun q hq ↦ ?_, fun q h1 h2 ↦ ?_, fun q h1 h2 ↦ ?_, hvalid₂, fun f ↦ ?_, ?_⟩
    · refine hspace₂.of_pte hframe htab (fun q hq ↦ ?_) (fun q hq p hp ↦ ?_)
      · rw [hpte, if_neg (by omega)]
      · rw [hpte] at hp
        split at hp
        · exact hsrc.user q hq p hp
        · exact hspace₂.user q hq p hp
    · rw [hlow q (by omega), hout.pte, if_pos (by omega)]
      simpa [hlen₂] using hq
    · rw [hpte, if_pos (by omega)]
    · rw [hlow q h2, hout.pte, if_neg (by omega)]
      exact hfree₁ q (by omega)
    · have h1 := hcount f
      rw [hprivate, hframe, PageDir.tables, htab, ← PageDir.tables]
      omega
    · have : m₁.length = l.length + m₂.length := by rw [hout.taken, List.length_append]
      omega

theorem copyuvm_outcome {shmtop sz : ℕ} {src : PageDir} {m : Freelist} (hsrc : Space L src)
    (hm : ∀ f ∈ m, L.Valid f) (hsz : sz ≤ shmtop) (htop : shmtop ≤ usertop)
    (halign : shmtop % pgsize = 0)
    (hpres : ∀ q, shmtop / pgsize ≤ q → q < 160 → (src.pte q).isSome) :
    CopyOutcome L shmtop sz src m (copyuvm L sz shmtop sz src m) := by
  have hout := copyuvm_result hsrc hm hsz htop halign hpres
  generalize copyuvm L sz shmtop sz src m = x at hout ⊢
  cases hout with
  | panic hq hnone => exact .panic hq hnone
  | lost hlen => exact .fail (by omega) (by simp) (by simp)
  | undone _ hlen hcount hvalid => exact .fail hlen (fun f ↦ (hcount f).le) hvalid
  | copied hcopied => exact .copied hcopied

end CS537.Shm
