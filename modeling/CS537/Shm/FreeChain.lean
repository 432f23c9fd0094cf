import CS537.Lib.Links
import CS537.Shm.Frames
import CS537.Shm.Growproc

/-!
# The free list in memory

`kalloc.c` threads the free list through the free frames: the first word of each is the address of
the next. The model passes the list along as a value, and the two say the same as long as no frame is
freed that is on the list already. To free one a second time makes a circle of the links, so that
what lay behind the frame is lost and no list describes what `kalloc` is going to return.
-/

open Function Transition

namespace CS537.Shm

variable {L : Link} {mem : Phys} {m : Freelist} {v : ℕ}

/-! ## Links -/

/-- The word at `x`, little-endian. -/
def wordAt (mem : Phys) (x : ℕ) : ℕ :=
  (mem x).toNat + 256 * (mem (x + 1)).toNat + 65536 * (mem (x + 2)).toNat
    + 16777216 * (mem (x + 3)).toNat

/-- `((struct run*)v)->next`. -/
def runNext (mem : Phys) (v : ℕ) : Option ℕ := if wordAt mem v = 0 then none else some (wordAt mem v)

/-- The links, followed from the head, lead through the frames of the list. -/
def Threaded (mem : Phys) (m : Freelist) : Prop := Slist.Chain (runNext mem) m.head? m

theorem wordAt_storeWord (x : ℕ) (w : BitVec 32) : wordAt (storeWord x w mem) x = w.toNat := by
  have hbyte : ∀ i, i < 4 → storeWord x w mem (x + i) = w.extractLsb' (8 * i) 8 := by
    intro i hi
    rw [storeWord, if_pos (by omega), Nat.add_sub_cancel_left]
  have hlt := w.isLt
  have hfirst := hbyte 0 (by decide)
  rw [Nat.add_zero] at hfirst
  rw [wordAt, hfirst, hbyte 1 (by decide), hbyte 2 (by decide), hbyte 3 (by decide)]
  simp only [BitVec.extractLsb'_toNat, Nat.shiftRight_eq_div_pow]
  omega

theorem runNext_congr {mem' : Phys} (h : ∀ y, InFrame v y → mem' y = mem y) :
    runNext mem' v = runNext mem v := by
  have hin : ∀ i, i < 4 → InFrame v (v + i) := fun i hi ↦
    ⟨Nat.le_add_right v i, Nat.add_lt_add_left (hi.trans (by decide)) v⟩
  have hword : wordAt mem' v = wordAt mem v := by
    rw [wordAt, wordAt, h v (hin 0 (by decide)), h _ (hin 1 (by decide)), h _ (hin 2 (by decide)),
      h _ (hin 3 (by decide))]
  rw [runNext, runNext, hword]

/-- `r->next = kmem.freelist`. -/
theorem runNext_kfreeBytes (hm : ∀ f ∈ m, L.Valid f) : runNext (kfreeBytes v m mem) v = m.head? := by
  rw [runNext, kfreeBytes, wordAt_storeWord, BitVec.toNat_ofNat]
  cases m with
  | nil => rfl
  | cons r m =>
    have hr := hm r (List.mem_cons_self ..)
    have hmod : r % 2 ^ 32 = r := Nat.mod_eq_of_lt (hr.2.2.trans (by decide))
    rw [List.headD_cons, hmod, if_neg hr.ne_zero]
    rfl

theorem runNext_kfreeBytes_of_ne {f : ℕ} (hv : v % pgsize = 0) (hf : f % pgsize = 0)
    (hne : f ≠ v) : runNext (kfreeBytes v m mem) f = runNext mem f := by
  refine runNext_congr fun y hy ↦ (Overwrites.kfreeBytes v m).other mem y fun g hg hin ↦ hne ?_
  rw [List.mem_singleton.mp hg] at hin
  simp only [InFrame, pgsize] at *
  omega

/-! ## `kfree` and `kalloc` -/

namespace Threaded

/-- `kmem.freelist = r->next`. -/
theorem kalloc {r : ℕ} (h : Threaded mem (r :: m)) : Threaded mem m := by
  have hrest : Slist.Chain (runNext mem) (runNext mem r) m := h.2
  rwa [hrest.head_eq] at hrest

/-- Writes to other frames do not matter. -/
theorem overwrites {F : List ℕ} {g : Phys → Phys} (h : Threaded mem m) (hg : Overwrites F g)
    (hm : ∀ f ∈ m, L.Valid f) (hF : ∀ f ∈ F, L.Valid f ∧ f ∉ m) : Threaded (g mem) m := by
  refine Slist.Chain.congr h fun f hf ↦ runNext_congr fun y hy ↦ hg.other mem y fun f' hf' hin ↦ ?_
  have halign := (hm f hf).1
  have halign' := (hF f' hf').1.1
  obtain rfl : f' = f := by
    simp only [InFrame, pgsize] at *
    omega
  exact (hF f' hf').2 hf

theorem kfree (h : Threaded mem m) (hm : ∀ f ∈ m, L.Valid f) (hv : L.Valid v) (hnew : v ∉ m) :
    Threaded (kfreeBytes v m mem) (v :: m) :=
  Slist.Chain.cons h hnew (runNext_kfreeBytes hm) fun f hf hne ↦
    runNext_kfreeBytes_of_ne hv.1 (hm f hf).1 hne

/-- A frame that is freed while it is on the list closes the list to a circle. -/
theorem kfree_circular (h : Threaded mem m) (hm : ∀ f ∈ m, L.Valid f) (hmem : v ∈ m)
    (l : Freelist) : ¬Slist.Chain (runNext (kfreeBytes v m mem)) (some v) l :=
  Slist.Chain.circular h hmem (runNext_kfreeBytes hm)
    (fun f hf hne ↦ runNext_kfreeBytes_of_ne (hm v hmem).1 (hm f hf).1 hne) l

/-- The loop of `deallocuvm`. -/
theorem deallocPages {n v : ℕ} {d d' : PageDir} {m' : Freelist} (h : Threaded mem m)
    (hd : Space L d) (hv : v + n ≤ 160) (hm : ∀ f ∈ m, L.Valid f)
    (hcall : deallocPages L n v m d = .ok (m', d')) (hnodup : m'.Nodup) :
    Threaded (deallocPagesBytes n v m d mem) m' := by
  induction n generalizing v m d mem with
  | zero =>
    obtain ⟨rfl, -⟩ := Prod.mk.inj (Except.ok.inj hcall)
    exact h
  | succ n ih =>
    rw [CS537.Shm.deallocPages] at hcall
    rw [deallocPagesBytes]
    cases hp : d.pte v with
    | none =>
      rw [hp] at hcall
      exact ih h hd (by omega) hm hcall
    | some p =>
      have hvalid := (hd.user v (by omega) p hp).1
      have hspace := hd.setPte (v := v) (by omega) (p := none) (by simp)
      rw [hp] at hcall
      simp only [hvalid.ne_zero, if_false, kfree_of_valid hvalid] at hcall
      have hcall' : CS537.Shm.deallocPages L n (v + 1) (p.pa :: m) (d.setPte v none)
          = .ok (m', d') := hcall
      -- the frame ends up on a list without repetition
      obtain ⟨m₁, d₁, hok, hfreed⟩ := deallocPages_freed (p.pa :: m) hspace (n := n) (v := v + 1)
        (by omega)
      obtain ⟨rfl, -⟩ := Prod.mk.inj (Except.ok.inj (hok.symm.trans hcall'))
      obtain ⟨l, rfl, -, -⟩ := hfreed.freed
      have hnew : p.pa ∉ m := (List.nodup_cons.mp (List.nodup_append.mp hnodup).2.1).1
      refine ih (h.kfree hm hvalid hnew) hspace (by omega) ?_ hcall'
      simpa using ⟨hvalid, hm⟩

/-- The loop of `allocuvm`. -/
theorem allocPages {n v : ℕ} {d : PageDir} (h : Threaded mem m) (hd : Space L d)
    (hv : v + n ≤ 160) (hfree : ∀ u, v ≤ u → u < v + n → d.pte u = none)
    (hm : ∀ f ∈ m, L.Valid f) (hnodup : m.Nodup) :
    Threaded (allocPagesBytes n v m d mem) (m.drop n) := by
  have hdrop : Threaded mem (m.drop n) := by
    induction n generalizing m with
    | zero => exact h
    | succ n ih =>
      cases m with
      | nil => exact h
      | cons r m =>
        exact ih h.kalloc (by omega) (fun u h1 h2 ↦ hfree u h1 (by omega))
          (fun f hf ↦ hm f (List.mem_cons_of_mem _ hf)) (List.nodup_cons.mp hnodup).2
  have hsplit : (m.take n ++ m.drop n).Nodup := by rwa [List.take_append_drop]
  refine hdrop.overwrites (allocPagesBytes_overwrites m hd hv hfree hm)
    (fun f hf ↦ hm f (List.mem_of_mem_drop hf)) fun f hf ↦ ⟨hm f (List.mem_of_mem_take hf), ?_⟩
  exact fun hf' ↦ (List.nodup_append.mp hsplit).2.2 f hf f hf' rfl

theorem deallocuvm {oldsz newsz ret : ℕ} {d d' : PageDir} {m' : Freelist} (h : Threaded mem m)
    (hd : Space L d) (hold : oldsz ≤ usertop) (hm : ∀ f ∈ m, L.Valid f)
    (hcall : deallocuvm L oldsz newsz m d = .ok (m', d', ret)) (hnodup : m'.Nodup) :
    Threaded (deallocuvmBytes oldsz newsz m d mem) m' := by
  rw [CS537.Shm.deallocuvm] at hcall
  rw [deallocuvmBytes]
  split at hcall
  · rename_i hle
    obtain ⟨rfl, -⟩ := Prod.mk.inj (Except.ok.inj hcall)
    rwa [if_pos hle]
  · rename_i hle
    obtain ⟨⟨m₁, d₁⟩, hpages, hcall⟩ := bind_eq_ok hcall
    obtain ⟨rfl, -⟩ := Prod.mk.inj (Except.ok.inj hcall)
    have hend := pageUp_le hold
    have hmono := pageUp_mono (not_le.mp hle).le
    rw [if_neg hle]
    refine h.deallocPages hd ?_ hm hpages hnodup
    rw [rounds]
    omega

theorem allocuvm {shmtop oldsz newsz : ℕ} {d : PageDir} {g : Grown} (h : Threaded mem m)
    (hd : Space L d) (htop : shmtop ≤ usertop) (hm : ∀ f ∈ m, L.Valid f)
    (hfree : ∀ u, pageUp oldsz ≤ u → u < pageUp newsz → newsz ≤ shmtop → d.pte u = none)
    (hcall : allocuvm L shmtop oldsz newsz m d = .ok g) (hold : m.Nodup)
    (hnodup : g.freelist.Nodup) :
    Threaded (allocuvmBytes shmtop oldsz newsz m d mem) g.freelist := by
  rw [CS537.Shm.allocuvm] at hcall
  rw [allocuvmBytes]
  split at hcall
  · rename_i hhigh
    obtain rfl := Except.ok.inj hcall
    rwa [if_pos hhigh]
  rename_i hhigh
  split at hcall
  · rename_i hshrink
    obtain rfl := Except.ok.inj hcall
    rwa [if_neg hhigh, if_pos hshrink]
  rename_i hshrink
  have hle := pageUp_le (show newsz ≤ usertop by omega)
  have hmono := pageUp_mono (not_lt.mp hshrink)
  have hend : pageUp oldsz + rounds (pageUp oldsz) newsz ≤ 160 := by
    rw [rounds]
    omega
  have habsent : ∀ u, pageUp oldsz ≤ u → u < pageUp oldsz + rounds (pageUp oldsz) newsz →
      d.pte u = none := by
    intro u h1 h2
    rw [rounds] at h2
    exact hfree u h1 (by omega) (not_lt.mp hhigh)
  obtain ⟨m₁, d₁, l, ok, hpages, hmap, htrue, hfalse⟩ := allocPages_mapped m hd hend habsent hm
  have hthread := h.allocPages hd hend habsent hm hold
  rw [hpages, ok_bind] at hcall
  rw [if_neg hhigh, if_neg hshrink]
  simp only [hpages]
  cases ok with
  | true =>
    obtain rfl := Except.ok.inj hcall
    have hdrop : m.drop (rounds (pageUp oldsz) newsz) = m₁ := by
      rw [hmap.taken, List.drop_left' (htrue rfl)]
    rwa [hdrop] at hthread
  | false =>
    -- the list is empty, and `deallocuvm` puts back what was taken
    obtain ⟨hlen, rfl⟩ := hfalse rfl
    obtain ⟨⟨m₂, d₂, ret⟩, hdealloc, hcall⟩ := bind_eq_ok hcall
    obtain rfl := Except.ok.inj hcall
    have hnil : m.drop (rounds (pageUp oldsz) newsz) = [] := by
      refine List.drop_eq_nil_of_le ?_
      rw [hmap.taken, List.append_nil]
      exact hlen.le
    rw [hnil] at hthread
    exact hthread.deallocuvm (hmap.space hd (by omega) hm) (by omega) (by simp) hdealloc hnodup

end Threaded

/-- **`sbrk` keeps the list threaded.** In a state that careful calls reach, the links that
`growproc` leaves in memory lead through the frames of the model's list. -/
theorem Sound.growproc_threaded {s t : Kernel} {q : Slot} {n : BitVec 32} {x : ℤ} (hs : Sound L s)
    (hq : s.Ready q) (hcall : growproc L q n s = .ok (t, x)) (h : Threaded mem s.freelist) :
    Threaded (growprocBytes q n s mem) t.freelist := by
  have hok := hs.reach.memOk
  have hp := hok.procs q _ (mem_proc hq.ne_unused)
  have hsz : (s.proc q).sz ≤ usertop := hp.sz_le.trans hp.top_le
  have hstep : step L (.sbrk q n) s = some t := (if_pos hq).trans (by rw [hcall]; rfl)
  have ht : Sound L t := ReachableBy.snoc hs hstep ⟨trivial, fun ⟨_, _, ha, _⟩ ↦ by cases ha⟩
  have hnodup := ht.nodup
  rw [growproc] at hcall
  rw [growprocBytes]
  simp only at hcall ⊢
  split at hcall
  · rename_i hpos
    obtain ⟨g, hg, hcall⟩ := bind_eq_ok hcall
    rw [setProc_ret hcall] at hnodup ⊢
    rw [if_pos hpos]
    exact h.allocuvm hp.space hp.top_le hok.free (fun u h1 h2 h3 ↦ hp.absent h3 h1 h2) hg hs.nodup
      hnodup
  split at hcall
  · rename_i hpos hneg
    obtain ⟨⟨m, d, ret⟩, hm, hcall⟩ := bind_eq_ok hcall
    rw [setProc_ret hcall] at hnodup ⊢
    rw [if_neg hpos, if_pos hneg]
    exact h.deallocuvm hp.space hsz hok.free hm hnodup
  · rename_i hpos hneg
    obtain ⟨rfl, -⟩ := Prod.mk.inj (Except.ok.inj hcall)
    rwa [if_neg hpos, if_neg hneg]

end CS537.Shm
