import CS537.Shm.RefCount

/-!
# Who owns a frame

A frame is on the free list, or a process owns it (its stack, its directory, its page tables, and
what lies below `shmtop`), or a region that is in use records it. `Mem.uses` counts these places.
At boot a frame has at most one, and no step adds one, with one exception: `wait` tears down the
child's address space with `proc->sz` of the parent. When that is beyond `shmtop` of the child,
frames of shared regions are freed as well.
-/

open Finset Function Holding Tally Transition

namespace CS537.Shm

variable {L : Link}

/-! ## Counting the places of a frame -/

/-- The places of `f` in a process. Pages from `shmtop` on belong to the regions. -/
def ProcMem.owns (p : ProcMem) (f : ℕ) : ℕ :=
  [p.kstack].count f + [p.pgdir.frame].count f + p.pgdir.tables f
    + held (range (p.shmtop / pgsize)) p.pgdir.frames f

/-- The places of `f` in a slot. -/
def owned (f : ℕ) (o : Option ProcMem) : ℕ := o.elim 0 fun p ↦ p.owns f

/-- The places of `f` in the rows of the regions in use. -/
def Mem.rows (m : Mem) (f : ℕ) : ℕ :=
  ∑ k, if 0 < m.count k then rowHolds (m.paddr k) (m.pages k) f else 0

/-- The places of `f`. -/
def Mem.uses (m : Mem) (f : ℕ) : ℕ := m.freelist.count f + tally (owned f) m.proc + m.rows f

theorem uses_update {m m' : Mem} {q : Slot} {o : Option ProcMem} {f : ℕ}
    (hproc : m'.proc = update m.proc q o)
    (h : m'.freelist.count f + owned f o + m'.rows f
      ≤ m.freelist.count f + owned f (m.proc q) + m.rows f) : m'.uses f ≤ m.uses f := by
  have htally := tally_update (owned f) m.proc q o
  rw [Mem.uses, hproc, Mem.uses]
  omega

/-- Leaving regions moves the frames of those that nobody holds any more to the free list. -/
theorem rows_leave {m : Mem} {v : Key → ℕ} {l : List ℕ} (hl : LeaveFrees L m v l)
    (hpos : ∀ k, v k ≠ 0 → 0 < m.count k) (f : ℕ) : (m.leave v).rows f + l.count f = m.rows f := by
  rw [Mem.rows, hl.count, ← sum_add_distrib, Mem.rows]
  refine sum_congr rfl fun k _ ↦ ?_
  change (if 0 < m.count k - (attachedTo v k : ℤ) then
    rowHolds (fun i ↦ if LastRef v m.count k ∧ i < m.pages k then 0 else m.paddr k i) (m.pages k) f
    else 0) + _ = _
  by_cases hlast : LastRef v m.count k
  · have hone := hlast.2
    rw [attachedTo_of_ne hlast.1, if_neg (by omega), if_pos hlast, if_pos hlast.pos, Nat.zero_add]
  · have hrow : (fun i ↦ if LastRef v m.count k ∧ i < m.pages k then 0 else m.paddr k i)
        = m.paddr k := funext fun i ↦ if_neg fun h ↦ hlast h.1
    rw [hrow, if_neg hlast, Nat.add_zero]
    refine if_congr ?_ rfl rfl
    by_cases hv : v k = 0
    · rw [attachedTo, if_neg fun h ↦ h hv]
      omega
    · have h1 := hpos k hv
      have h2 : m.count k ≠ 1 := fun h ↦ hlast ⟨hv, h⟩
      rw [attachedTo_of_ne hv]
      omega

/-- Nothing is mapped between the private pages and `shmtop`. -/
theorem held_gap {d : PageDir} {v w : ℕ} (hvw : v ≤ w)
    (hgap : ∀ q, v ≤ q → q < w → d.pte q = none) (f : ℕ) :
    held (range w) d.frames f = held (range v) d.frames f := by
  have hnone : held (Ico v w) d.frames f = 0 := by
    refine held_eq_zero_of_none (fun q hq ↦ ?_) f
    rw [mem_Ico] at hq
    rw [PageDir.frames, hgap q hq.1 hq.2]
    rfl
  rw [held_split hvw le_rfl, hnone, Ico_self, held_empty]
  rfl

/-- What `freevm` gives back, when it is told a size below `shmtop`, was owned by the process. -/
theorem DirFrees.le_owns {sz : ℕ} {p : ProcMem} {l : List ℕ} (h : DirFrees L sz p.pgdir l)
    (hsz : pageUp sz ≤ p.shmtop / pgsize) (f : ℕ) :
    l.count f + [p.kstack].count f ≤ p.owns f := by
  have h1 := h.count f
  have h2 := held_mono (range_subset_range.mpr hsz) p.pgdir.frames f
  rw [ProcMem.owns]
  omega

/-! ## Effects -/

/-- The caller of a `wait` is no larger than `shmtop` of the child that it reaps. -/
def Mem.ReapFits (m : Mem) (c : Option Slot) (a : Act) : Prop :=
  ∀ q z p ch, a = .wait q → c = some z → m.proc q = some p → m.proc z = some ch → p.sz ≤ ch.shmtop

/-- `fork` raises only counters that are positive. -/
theorem MemOk.raise_pos {m : Mem} (h : MemOk L m) {q : Slot} {p : ProcMem}
    (hq : m.proc q = some p) (k : Key) :
    0 < m.count k + (attachedTo p.shmemVaddr k : ℤ) ↔ 0 < m.count k := by
  by_cases hv : p.shmemVaddr k = 0
  · rw [attachedTo, if_neg fun h ↦ h hv, Nat.cast_zero, add_zero]
  · have := h.count_pos hq hv
    omega

theorem MemOk.raise_rows {m : Mem} (h : MemOk L m) {q : Slot} {p : ProcMem}
    (hq : m.proc q = some p) (fl : Freelist) (proc : Slot → Option ProcMem) (f : ℕ) :
    Mem.rows ⟨fl, proc, fun k ↦ m.count k + attachedTo p.shmemVaddr k, m.pages, m.paddr⟩ f
      = m.rows f := by
  rw [Mem.rows, Mem.rows]
  exact sum_congr rfl fun k _ ↦ if_congr (h.raise_pos hq k) rfl rfl

/-- The address space of the child of a `fork` owns what was taken for it. -/
theorem Copied.owns {p : ProcMem} {m fl : Freelist} {d : PageDir}
    (h : Copied L p.shmtop p.sz p.pgdir m fl d) (hup : pageUp p.sz ≤ p.shmtop / pgsize) (r f : ℕ) :
    fl.count f + ProcMem.owns { p with pgdir := d, kstack := r } f = (r :: m).count f := by
  have hcount := h.count f
  have hgap := held_gap hup h.gap f
  rw [← List.singleton_append, List.count_append, ProcMem.owns]
  simp only
  omega

/-- A new image owns what was taken for it. -/
theorem Built.owns {top sz : ℕ} {m fl : Freelist} {d : PageDir} (h : Built L top sz m fl d)
    (htop : top ≤ usertop) (r f : ℕ) :
    fl.count f + ProcMem.owns ⟨sz, d, r, fun _ ↦ 0, usertop⟩ f = m.count f + [r].count f := by
  have hcount := h.count f
  have h160 : usertop / pgsize = 160 := by decide
  have hgap := held_gap (pageUp_le (h.sz_le.trans htop)) h.gap f
  rw [ProcMem.owns]
  simp only [h160]
  omega

/-- A change of the private pages that moves frames between them and the free list. -/
theorem ProcMem.owns_of_pages {p : ProcMem} {m fl : Freelist} {d : PageDir} (sz : ℕ) {f : ℕ}
    (hframe : d.frame = p.pgdir.frame) (htab : d.tab = p.pgdir.tab)
    (hcount : fl.count f + held (range (p.shmtop / pgsize)) d.frames f
      = m.count f + held (range (p.shmtop / pgsize)) p.pgdir.frames f) :
    fl.count f + ProcMem.owns { p with pgdir := d, sz := sz } f = m.count f + p.owns f := by
  rw [ProcMem.owns, ProcMem.owns]
  simp only [hframe, tables_congr htab]
  omega

/-- Pages that go to a region were not owned before and are not owned after. -/
theorem ProcOk.attach_owns {pages : Key → ℕ} {paddr : Key → ℕ → ℕ} {p : ProcMem} {n : ℕ}
    {row : ℕ → ℕ} {d : PageDir} (h : ProcOk L pages paddr p)
    (hroom : p.sz + n * pgsize ≤ p.shmtop) (hframe : d.frame = p.pgdir.frame)
    (htab : d.tab = p.pgdir.tab)
    (hpte : ∀ u, d.pte u = if p.shmtop / pgsize - n ≤ u ∧ u < p.shmtop / pgsize then
      some ⟨row (p.shmtop / pgsize - 1 - u), true, true⟩ else p.pgdir.pte u) (v : Key → ℕ) (f : ℕ) :
    ProcMem.owns { p with pgdir := d, shmemVaddr := v, shmtop := p.shmtop - n * pgsize } f
      = p.owns f := by
  have halign := h.top_aligned
  have hdiv : (p.shmtop - n * pgsize) / pgsize = p.shmtop / pgsize - n := by
    simp only [pgsize] at *
    omega
  have hup : pageUp p.sz ≤ p.shmtop / pgsize - n := by
    simp only [pageUp, pgsize] at *
    omega
  have hold := held_gap (Nat.sub_le (p.shmtop / pgsize) n)
    (fun u h1 h2 ↦ h.gap u (by omega) h2) f
  have hnew : held (range (p.shmtop / pgsize - n)) d.frames f
      = held (range (p.shmtop / pgsize - n)) p.pgdir.frames f := by
    refine held_congr (fun u hu ↦ frames_congr ?_) f
    rw [mem_range] at hu
    rw [hpte, if_neg (by omega)]
  rw [ProcMem.owns, ProcMem.owns]
  simp only [hframe, tables_congr htab, hdiv, hnew, hold]

/-- A new region records the frames that were taken for it; a region that exists keeps its row. -/
theorem MemOk.attach_rows {m : Mem} {k : Key} {n : ℕ} {fresh : Bool} {fl : Freelist}
    {row : ℕ → ℕ} (h : MemOk L m) (hfresh : fresh = true → m.count k = 0 ∧ n ≤ shmemMaxPages)
    (hold : fresh = false → m.count k ≠ 0 ∧ n = m.pages k)
    (hrow : RowFor L fresh n 0 m.freelist (m.paddr k) fl row) (proc : Slot → Option ProcMem)
    (f : ℕ) :
    fl.count f + Mem.rows ⟨fl, proc, update m.count k (m.count k + 1), update m.pages k n,
      update m.paddr k row⟩ f = m.freelist.count f + m.rows f := by
  have hnonneg : 0 ≤ m.count k := by
    have := h.attached_le k
    omega
  have hsplit : ∀ g : Key → ℕ, ∑ j, g j = g k + ∑ j ∈ univ.erase k, g j := fun g ↦
    (add_sum_erase univ g (mem_univ k)).symm
  -- the other rows count as before
  have hrest : ∑ j ∈ univ.erase k, (if 0 < update m.count k (m.count k + 1) j then
        rowHolds (update m.paddr k row j) (update m.pages k n j) f else 0)
      = ∑ j ∈ univ.erase k, if 0 < m.count j then rowHolds (m.paddr j) (m.pages j) f else 0 := by
    refine sum_congr rfl fun j hj ↦ ?_
    have hjk := ne_of_mem_erase hj
    rw [update_of_ne hjk, update_of_ne hjk, update_of_ne hjk]
  rw [Mem.rows, Mem.rows, hsplit, hsplit fun j ↦ if 0 < m.count j then _ else 0]
  simp only
  rw [hrest, update_self, update_self, update_self, if_pos (by omega)]
  cases fresh with
  | true =>
    have hcount := (hrow.taken rfl).2 f
    rw [(hfresh rfl).1, if_neg (lt_irrefl 0), rowHolds, range_eq_Ico]
    rw [Nat.zero_add] at hcount
    omega
  | false =>
    obtain ⟨hne, rfl⟩ := hold rfl
    obtain ⟨rfl, rfl⟩ := hrow.old rfl
    rw [if_pos (by omega)]

/-- No effect adds a place to a frame. -/
theorem Effect.uses_le {c : Option Slot} {a : Act} {m m' : Mem} (he : Effect L c a m m')
    (hok : MemOk L m) (hfit : m.ReapFits c a) (f : ℕ) : m'.uses f ≤ m.uses f := by
  cases he with
  | idle => exact le_rfl
  | @forkFail q _ _ p _ _ fl hq _ _ _ hshrunk =>
    have := hshrunk.count f
    rw [Mem.uses, hok.raise_rows hq, Mem.uses]
    simp only
    omega
  -- the stack, the directory and the pages of the child come off the free list
  | @forked q np _ p r m₁ fl d hq hnp hfl hcopy =>
    have hp := hok.procs q p hq
    have howns := hcopy.owns (pageUp_le_div hp.sz_le hp.top_aligned) r f
    refine uses_update rfl ?_
    rw [hok.raise_rows hq, hnp, hfl]
    change fl.count f + ProcMem.owns { p with pgdir := d, kstack := r } f + _ ≤ _ + 0 + _
    omega
  | execFail hshrunk =>
    have := hshrunk.count f
    rw [Mem.uses, Mem.uses]
    exact Nat.add_le_add_right (Nat.add_le_add_right this _) _
  -- what the new image takes, the old one and its last regions give back
  | @execed q _ _ _ p sz fl l l' d hq hbuilt hleave hdir =>
    have hp := hok.procs q p hq
    have hrows := rows_leave hleave (fun k hk ↦ hok.count_pos hq hk) f
    have hnew := hbuilt.owns hp.top_le p.kstack f
    have hold := hdir.le_owns (pageUp_le_div hbuilt.sz_le hp.top_aligned) f
    refine uses_update rfl ?_
    rw [hq]
    change (l' ++ (l ++ fl)).count f + ProcMem.owns ⟨sz, d, p.kstack, fun _ ↦ 0, usertop⟩ f
      + (m.leave p.shmemVaddr).rows f ≤ m.freelist.count f + p.owns f + m.rows f
    rw [List.count_append, List.count_append]
    omega
  | @reaped q z _ p ch l l' hc hq hz hleave hdir =>
    have hch := hok.procs z ch hz
    have hrows := rows_leave hleave (fun k hk ↦ hok.count_pos hz hk) f
    -- the child owns all that `freevm` frees, because the size of the parent fits
    have hold := hdir.le_owns (pageUp_le_div (hfit q z p ch rfl hc hq hz) hch.top_aligned) f
    refine uses_update rfl ?_
    rw [hz]
    change (l ++ (l' ++ ([ch.kstack] ++ m.freelist))).count f + 0 + (m.leave ch.shmemVaddr).rows f
      ≤ m.freelist.count f + ch.owns f + m.rows f
    rw [List.count_append, List.count_append, List.count_append]
    omega
  | @grown q _ _ p newsz l fl d hq hle hge hmap hlen =>
    have hp := hok.procs q p hq
    have hup := pageUp_le_div hle hp.top_aligned
    have hmono := pageUp_mono hge
    have howns := ProcMem.owns_of_pages (m := m.freelist) newsz hmap.frame hmap.tab
      (hmap.count (f := f) (by omega) fun v h1 h2 ↦ hp.gap v h1 (by omega))
    refine uses_update rfl ?_
    rw [hq]
    exact Nat.add_le_add_right howns.le _
  | @growFull q _ _ p fl d hq hframe htab hpte hcount =>
    have hheld : held (range (p.shmtop / pgsize)) d.frames f
        = held (range (p.shmtop / pgsize)) p.pgdir.frames f :=
      held_congr (fun v _ ↦ frames_congr (by rw [hpte])) f
    have howns := ProcMem.owns_of_pages (m := m.freelist) p.sz hframe htab
      (show fl.count f + _ = _ by rw [hcount, hheld])
    refine uses_update rfl ?_
    rw [hq]
    exact Nat.add_le_add_right howns.le _
  | @shrunk q _ _ p newsz fl d hq hlt hfreed =>
    have hp := hok.procs q p hq
    have hup := pageUp_le_div hp.sz_le hp.top_aligned
    have hmono := pageUp_mono (Nat.le_of_lt hlt)
    have howns := ProcMem.owns_of_pages (m := m.freelist) (if newsz = 0 then p.sz else newsz)
      hfreed.frame hfreed.tab (hfreed.count_range (f := f) (by rw [rounds]; omega))
    refine uses_update rfl ?_
    rw [hq]
    exact Nat.add_le_add_right howns.le _
  | @attached q _ _ _ p fresh k n row fl d hq hk hfresh hold hn hroom hrow hframe htab hpte =>
    have howns := (hok.procs q p hq).attach_owns hroom hframe htab hpte
      (update p.shmemVaddr k (p.shmtop - n * pgsize)) f
    have hrows := hok.attach_rows hfresh hold hrow (update m.proc q (some { p with
      pgdir := d
      shmemVaddr := update p.shmemVaddr k (p.shmtop - n * pgsize)
      shmtop := p.shmtop - n * pgsize })) f
    refine uses_update rfl ?_
    rw [hq]
    change fl.count f + ProcMem.owns { p with
        pgdir := d
        shmemVaddr := update p.shmemVaddr k (p.shmtop - n * pgsize)
        shmtop := p.shmtop - n * pgsize } f + _ ≤ _ + p.owns f + _
    omega

/-! ## Boot -/

/-- After boot no frame has two places. -/
theorem Booted.uses_le {s : Kernel} (h : Booted L s) (f : ℕ) : s.mem.uses f ≤ 1 := by
  obtain ⟨r, m₁, d, r₀, m₂, hsuffix, hfresh, rfl⟩ := h.firstState
  have htab : (d.tab (0 / 1024)).isSome := (hfresh.tab _).mpr (.inl (by decide))
  have hpte := d.setPte_pte htab (some ⟨r₀, true, true⟩)
  have hheld : held (range (usertop / pgsize)) (d.setPte 0 (some ⟨r₀, true, true⟩)).frames f
      = [r₀].count f := by
    have h160 : usertop / pgsize = 160 := by decide
    have hsplit : range 160 = insert 0 (Ico 1 160) := by
      ext v
      simp only [mem_range, mem_insert, mem_Ico]
      omega
    have hrest : held (Ico 1 160) (d.setPte 0 (some ⟨r₀, true, true⟩)).frames f = 0 := by
      refine held_eq_zero_of_none (fun v hv ↦ ?_) f
      rw [mem_Ico] at hv
      rw [PageDir.frames, hpte, update_of_ne (by omega), hfresh.pte, kernelPte_user L (by omega)]
      rfl
    rw [h160, hsplit, held_insert (by simp), hrest, PageDir.frames, hpte, update_self,
      List.count_singleton]
    change cell (some r₀) f + 0 = _
    rw [cell_some, Nat.add_zero]
    simp
  have howns : ProcMem.owns ⟨pgsize, d.setPte 0 (some ⟨r₀, true, true⟩), r, fun _ ↦ 0, usertop⟩ f
      = [r].count f + [d.frame].count f + d.tables f + [r₀].count f := by
    rw [ProcMem.owns]
    simp only [PageDir.setPte_frame, hheld,
      tables_congr (PageDir.setPte_tab d (v := 0) (some ⟨r₀, true, true⟩))]
  have htally : tally (owned f) (update (fun _ ↦ none) initproc
      (some ⟨pgsize, d.setPte 0 (some ⟨r₀, true, true⟩), r, fun _ ↦ 0, usertop⟩))
      = ProcMem.owns ⟨pgsize, d.setPte 0 (some ⟨r₀, true, true⟩), r, fun _ ↦ 0, usertop⟩ f := by
    have := tally_update (owned f) (fun _ : Slot ↦ none) initproc
      (some ⟨pgsize, d.setPte 0 (some ⟨r₀, true, true⟩), r, fun _ ↦ 0, usertop⟩)
    have hnone : owned f none = 0 := rfl
    rw [tally_eq_zero (w := owned f) (f := fun _ : Slot ↦ none) fun _ ↦ rfl, Nat.zero_add, hnone,
      Nat.add_zero] at this
    exact this
  -- every frame that boot has taken was on the first free list, which has no frame twice
  have hcount := hfresh.count f
  have hle := hsuffix.sublist.count_le f
  have hone := List.nodup_iff_count_le_one.mp L.nodup_frames f
  rw [firstState_mem, Mem.uses, htally, howns]
  have hrows : Mem.rows ⟨m₂, update (fun _ ↦ none) initproc
      (some ⟨pgsize, d.setPte 0 (some ⟨r₀, true, true⟩), r, fun _ ↦ 0, usertop⟩), fun _ ↦ 0,
      fun _ ↦ 0, fun _ _ ↦ 0⟩ f = 0 := sum_eq_zero fun k _ ↦ if_neg (lt_irrefl 0)
  rw [← List.singleton_append, List.count_append] at hle hcount
  rw [hrows]
  simp only
  omega

/-! ## The free list -/

/-- No frame is on the free list twice, and no frame on it is in use: mapped for a process that is
neither UNUSED nor a zombie, or recorded for a region whose counter is positive. -/
structure Kernel.FramesOk (s : Kernel) : Prop where
  nodup : s.freelist.Nodup
  unmapped : ∀ q, (s.proc q).state ≠ .unused → (s.proc q).state ≠ .zombie →
    ∀ v, v * pgsize < usertop → ∀ p, (s.proc q).pgdir.pte v = some p → p.pa ∉ s.freelist
  unrecorded : ∀ k, 0 < s.shmemCount k → ∀ i, i < shmemMaxPages → s.shmemPaddr k i ∉ s.freelist

/-- A frame of the row of a region in use has a place there. -/
theorem rows_pos {m : Mem} {k : Key} {i : ℕ} (hk : 0 < m.count k) (hi : i < m.pages k) :
    0 < m.rows (m.paddr k i) := by
  have hterm : 0 < rowHolds (m.paddr k) (m.pages k) (m.paddr k i) :=
    held_pos_iff.mpr ⟨i, mem_range.mpr hi, rfl⟩
  refine lt_of_lt_of_le hterm ?_
  rw [Mem.rows]
  refine le_trans (le_of_eq ?_) (single_le_sum_of_canonicallyOrdered (mem_univ k))
  exact (if_pos hk).symm

theorem MemOk.framesOk {s : Kernel} (hok : MemOk L s.mem) (huses : ∀ f, s.mem.uses f ≤ 1) :
    s.FramesOk := by
  -- a frame on the free list has no other place
  have hfree : ∀ f ∈ s.freelist, tally (owned f) s.mem.proc = 0 ∧ s.mem.rows f = 0 := by
    intro f hf
    have h1 := huses f
    have h2 : 0 < s.mem.freelist.count f := List.count_pos_iff.mpr hf
    rw [Mem.uses] at h1
    omega
  have hrecorded : ∀ k i, 0 < s.shmemCount k → s.shmemPaddr k i ∉ s.freelist := by
    intro k i hk hf
    -- an entry that is not in use is 0, which is no frame
    by_cases hi : i < s.shmemPages k
    · have := rows_pos (m := s.mem) hk hi
      have := (hfree _ hf).2
      change s.mem.rows (s.mem.paddr k i) = 0 at this
      omega
    · have hzero : s.shmemPaddr k i = 0 := hok.spare k i (.inr (Nat.le_of_not_lt hi))
      exact (hok.free _ hf).ne_zero hzero
  refine ⟨?_, fun q hq _ v hv p hp hf ↦ ?_, fun k hk i _ ↦ hrecorded k i hk⟩
  · refine List.nodup_iff_count_le_one.mpr fun f ↦ ?_
    have h1 := huses f
    rw [Mem.uses] at h1
    have h2 : s.mem.freelist.count f = s.freelist.count f := rfl
    omega
  · have hproc := hok.procs q _ (mem_proc hq)
    by_cases htop : v < (s.proc q).shmtop / pgsize
    · -- a private page
      have hheld : 0 < held (range ((s.proc q).shmtop / pgsize)) (s.proc q).pgdir.frames p.pa :=
        held_pos_iff.mpr ⟨v, mem_range.mpr htop, by rw [PageDir.frames, hp]; rfl⟩
      have hle := le_tally (owned p.pa) s.mem.proc q
      rw [mem_proc hq, (hfree _ hf).1] at hle
      change (s.proc q).view.owns p.pa ≤ 0 at hle
      rw [ProcMem.owns] at hle
      change _ + _ + _ + held (range ((s.proc q).shmtop / pgsize)) (s.proc q).pgdir.frames p.pa ≤ 0
        at hle
      omega
    · -- a page of a region
      obtain ⟨k, j, hk, hj, -, hpte⟩ := hproc.shared (v := v) (by simpa [Proc.view] using htop)
        (by simp only [pgsize, usertop] at hv; omega)
      obtain rfl := Option.some.inj (hp.symm.trans hpte)
      exact hrecorded k _ (hok.count_pos (mem_proc hq) hk) hf

/-! ## Reaping with the size of the parent -/

theorem reapFits_of_not {a : Act} {s t : Kernel} (h : ¬OversizedReap ⟨s, a, t⟩) :
    s.mem.ReapFits (a.victim s) a := by
  rintro q z p ch rfl hc hq hz
  obtain ⟨-, rfl⟩ := view_of_mem hq
  obtain ⟨-, rfl⟩ := view_of_mem hz
  by_contra hlt
  exact h ⟨q, z, rfl, hc, by simpa [Proc.view] using hlt⟩

/-- An oversized reap frees a frame of a region that the child has attached: either a second time,
or while the region is still in use. -/
theorem not_framesOk_of_oversized {a : Act} {s t : Kernel} (hok : MemOk L s.mem)
    (h : coreStep L a s = some t) (hm : OversizedReap ⟨s, a, t⟩) : ¬t.FramesOk := by
  obtain ⟨q, z, rfl, hz, hlt⟩ := hm
  simp only at hz hlt
  obtain ⟨hq, h⟩ := Option.ite_none_right_eq_some.mp h
  obtain ⟨x, h⟩ := map_fst_eq_ok h
  have hq' : (s.proc q).state ≠ .unused := by
    rw [hq]
    simp
  have hzstate : (s.proc z).state ≠ .unused := by
    rw [zombieChild_state hz]
    simp
  obtain ⟨l, l', u, hu, hleave, hdir, -, heq⟩ := reap_ok hok hq' hzstate
  rw [wait_of_reap hz hu] at h
  have ht := (Prod.mk.inj (Except.ok.inj h)).1
  have hfl : t.freelist = l ++ (l' ++ (s.proc z).kstack :: s.freelist) := by
    rw [← ht, heq]
    rfl
  have hcount : t.shmemCount = (s.mem.leave (s.proc z).shmemVaddr).count := by
    rw [← ht, heq]
    rfl
  have hpaddr : t.shmemPaddr = (s.mem.leave (s.proc z).shmemVaddr).paddr := by
    rw [← ht, heq]
    rfl
  clear h hu ht heq
  -- the lowest shared page of the child
  have hch := hok.procs z _ (mem_proc hzstate)
  have hp := hok.procs q _ (mem_proc hq')
  have halign : (s.proc z).shmtop % pgsize = 0 := hch.top_aligned
  have hsz : (s.proc q).sz ≤ usertop := hp.sz_le.trans hp.top_le
  obtain ⟨k, j, hk, hj, -, hpte⟩ := hch.shared (v := (s.proc z).shmtop / pgsize) le_rfl
    (by simp only [pgsize, usertop] at *; omega)
  change (s.proc z).shmemVaddr k ≠ 0 at hk
  change (s.proc z).pgdir.pte _ = _ at hpte
  have hfreed : 0 < l'.count (s.shmemPaddr k (s.shmemPages k - 1 - j)) := by
    have hheld : 0 < held (range (pageUp (s.proc q).sz)) (s.proc z).pgdir.frames
        (s.shmemPaddr k (s.shmemPages k - 1 - j)) := by
      refine held_pos_iff.mpr ⟨(s.proc z).shmtop / pgsize, mem_range.mpr ?_, ?_⟩
      · simp only [pageUp, pgsize] at *
        omega
      · rw [PageDir.frames, hpte]
        rfl
    have := hdir.count (s.shmemPaddr k (s.shmemPages k - 1 - j))
    omega
  have hi : s.shmemPages k - 1 - j < s.shmemPages k := by
    have : j < s.shmemPages k := hj
    omega
  have hpos : 0 < s.mem.count k := hok.count_pos (mem_proc hzstate) hk
  intro hframes
  by_cases hlast : LastRef (s.proc z).shmemVaddr s.mem.count k
  · -- the last reference: the row is freed as well
    have hrow : 0 < rowHolds (s.mem.paddr k) (s.mem.pages k)
        (s.shmemPaddr k (s.shmemPages k - 1 - j)) :=
      held_pos_iff.mpr ⟨_, mem_range.mpr hi, rfl⟩
    have hle : rowHolds (s.mem.paddr k) (s.mem.pages k)
        (s.shmemPaddr k (s.shmemPages k - 1 - j))
        ≤ l.count (s.shmemPaddr k (s.shmemPages k - 1 - j)) := by
      rw [hleave.count]
      refine le_trans (le_of_eq ?_) (single_le_sum_of_canonicallyOrdered (mem_univ k))
      exact (if_pos hlast).symm
    have hone := List.nodup_iff_count_le_one.mp hframes.nodup
      (s.shmemPaddr k (s.shmemPages k - 1 - j))
    rw [hfl, List.count_append, List.count_append] at hone
    omega
  · -- the region stays in use
    have hcount' : t.shmemCount k = s.mem.count k - attachedTo (s.proc z).shmemVaddr k :=
      congrFun hcount k
    have hpaddr' : t.shmemPaddr k (s.shmemPages k - 1 - j)
        = s.shmemPaddr k (s.shmemPages k - 1 - j) := by
      rw [hpaddr]
      exact if_neg fun h ↦ hlast h.1
    rw [attachedTo_of_ne hk] at hcount'
    have hne : s.mem.count k ≠ 1 := fun h ↦ hlast ⟨hk, h⟩
    have hmax : s.shmemPages k ≤ shmemMaxPages := hok.pages_le k
    refine hframes.unrecorded k (by omega) (s.shmemPages k - 1 - j) (by omega) ?_
    rw [hpaddr', hfl]
    have := List.count_pos_iff.mp hfreed
    simp [this]

/-! ## Runs -/

theorem run_frames {s₀ s : Kernel} {tr : List (Move Kernel Act)} (h₀ : Booted L s₀)
    (hrun : Run (coreStep L) s₀ tr s) :
    MemOk L s.mem ∧ ((∀ m ∈ tr, ¬OversizedReap m) → ∀ f, s.mem.uses f ≤ 1) ∧
      ((∀ m ∈ tr, m.dst.FramesOk) ↔ ∀ m ∈ tr, ¬OversizedReap m) := by
  induction hrun with
  | nil => exact ⟨h₀.memOk, fun _ ↦ h₀.uses_le, by simp⟩
  | @snoc s t tr a hrun hstep ih =>
    obtain ⟨hok, huses, hiff⟩ := ih
    have hok' := (step_effect hok hstep).memOk hok
    have huses' : (∀ m ∈ tr ++ [⟨s, a, t⟩], ¬OversizedReap m) → ∀ f, t.mem.uses f ≤ 1 := by
      intro h f
      rw [List.forall_mem_append, List.forall_mem_singleton] at h
      exact ((step_effect hok hstep).uses_le hok (reapFits_of_not h.2) f).trans (huses h.1 f)
    -- left to right a bad reap would show in its own result, right to left no place is added
    refine ⟨hok', huses', fun h ↦ ?_, fun h ↦ ?_⟩
    · rw [List.forall_mem_append, List.forall_mem_singleton] at h ⊢
      exact ⟨hiff.mp h.1, fun hm ↦ not_framesOk_of_oversized hok hstep hm h.2⟩
    · have ht := hok'.framesOk (huses' h)
      rw [List.forall_mem_append, List.forall_mem_singleton] at h ⊢
      exact ⟨hiff.mpr h.1, ht⟩

/-- After careful moves no frame has a second place. -/
theorem Sound.uses_le {s : Kernel} (hs : Sound L s) (f : ℕ) : s.mem.uses f ≤ 1 := by
  obtain ⟨s₀, tr, h₀, hrun, hcareful⟩ := hs
  exact (run_frames h₀ (h₀.run_core hrun fun m hm ↦ (hcareful m hm).1)).2.1
    (fun m hm ↦ (hcareful m hm).2) f

theorem Sound.nodup {s : Kernel} (hs : Sound L s) : s.freelist.Nodup :=
  (hs.reach.memOk.framesOk hs.uses_le).nodup

/-- The first process has forked, and both processes run with one page. -/
theorem exists_child : ∃ s z, Unreaped kernelImage s ∧ z ≠ initproc ∧ s.Ready initproc ∧ s.Ready z ∧
    (s.proc initproc).sz = pgsize ∧ (s.proc initproc).shmtop = usertop ∧
    (s.proc z).parent = some initproc ∧ (s.proc z).sz = pgsize ∧ (s.proc z).shmtop = usertop ∧
    ((s.proc z).shmemVaddr = fun _ ↦ 0) ∧ (s.shmemCount = fun _ ↦ 0) ∧ (s.proc z).Full ∧
    (∀ r, r ≠ initproc → r ≠ z → (s.proc r).state = .unused) ∧ 3780 = s.freelist.length ∧
    (s.proc initproc).Full := by
  obtain ⟨s₁, hs₁, hready₁, hlen₁, hsz₁, htop₁, hvaddr₁, hother₁, hcount₁, hfull₁⟩ :=
    exists_running_unreaped (L := kernelImage) (by rw [length_frames_kernelImage]; decide)
  rw [length_frames_kernelImage] at hlen₁
  have hone : pageUp pgsize = 1 := by decide
  have hlt₁ := count_lt_of_zero hcount₁
  have hfits₁ : s₁.CountsFit initproc := fun k _ ↦ hlt₁ k
  obtain ⟨s₂, z, d₂, r₂, hstep₂, hz, hraised, hz₂, hfull₂, hlen₂⟩ :=
    step_fork hs₁.reach.memOk hready₁ hfull₁ hfits₁
      ⟨⟨1, by decide⟩, hother₁ _ (by decide)⟩ (by rw [hsz₁, hone]; omega)
  rw [hsz₁, hone] at hlen₂
  have hne : initproc ≠ z := by
    rintro rfl
    exact hready₁.ne_unused hz
  have hstep₃ := step_dispatch (L := kernelImage) (q := z) (s := s₂) (by rw [hz₂])
  have hz₃ : (dispatch z s₂).proc z = { s₂.proc z with state := .running, chan := none } :=
    Kernel.setProc_self ..
  have hother₃ : ∀ r, r ≠ z → (dispatch z s₂).proc r = s₁.proc r := fun r hr ↦
    (Kernel.setProc_of_ne _ _ hr).trans (hraised.other r hr)
  refine ⟨dispatch z s₂, z, (hs₁.step hstep₂ hlt₁).step hstep₃ trivial, hne.symm, ?_, ?_,
    by rw [hother₃ _ hne, hsz₁], by rw [hother₃ _ hne, htop₁], by rw [hz₃, hz₂], ?_, ?_, ?_, ?_, ?_,
    fun r h1 h2 ↦ ?_, ?_, ?_⟩
  · rw [Kernel.Ready, hother₃ _ hne]
    exact hready₁
  · rw [Kernel.Ready, hz₃, hz₂]
    exact ⟨rfl, rfl⟩
  · rw [hz₃, hz₂]
    exact hsz₁
  · rw [hz₃, hz₂]
    exact htop₁
  · rw [hz₃, hz₂]
    exact hvaddr₁
  · change s₂.shmemCount = _
    rw [(hraised.count_eq hs₁.reach.memOk (hraised.rises hs₁.reach.memOk hfits₁)).1, hcount₁,
      hvaddr₁]
    rfl
  · rw [Proc.Full, hz₃]
    exact hfull₂
  · rw [hother₃ r h2]
    exact hother₁ r h1
  · change 3780 = s₂.freelist.length
    omega
  · rw [hother₃ _ hne]
    exact hfull₁

/-- The first process has forked, and its child has attached a region. -/
theorem exists_child_with_region : ∃ s z, Unreaped kernelImage s ∧ z ≠ initproc ∧
    s.Ready initproc ∧ s.Ready z ∧ (s.proc initproc).sz = pgsize ∧
    (s.proc initproc).shmtop = usertop ∧ (s.proc z).parent = some initproc ∧
    (s.proc z).shmtop = usertop - pgsize ∧
    (∀ r, r ≠ initproc → r ≠ z → (s.proc r).state = .unused) ∧ 159 ≤ s.freelist.length := by
  obtain ⟨s₁, z, hs₁, hne, hinit₁, hready₁, hsz₁, htop₁, hparent₁, hzsz₁, hztop₁, hvaddr₁,
    hcount₁, -, hother₁, hlen₁, -⟩ := exists_child
  have hlt₁ := count_lt_of_zero hcount₁
  let k : Key := ⟨0, by decide⟩
  have hnum : (1#32).toNat = 1 := rfl
  obtain ⟨s₂, d₂, hstep₂, hz₂, hother₂, hlen₂, -, -, hready₂, -⟩ :=
    step_shmgetat 0#32 1#32 (k := k) hs₁.reach.memOk hready₁ rfl (by decide) (by rw [hcount₁])
      (by rw [hvaddr₁]) (by rw [hzsz₁, hztop₁]; decide) (by rw [hnum]; omega)
  rw [hnum] at hlen₂
  have hinit₂ : s₂.proc initproc = s₁.proc initproc := hother₂ _ hne.symm
  refine ⟨s₂, z, hs₁.step hstep₂ hlt₁, hne, ?_, hready₂, by rw [hinit₂, hsz₁], by rw [hinit₂, htop₁],
    by rw [hz₂, hparent₁], by rw [hz₂, hztop₁, hnum, Nat.one_mul], fun r h1 h2 ↦ ?_, by omega⟩
  · rw [Kernel.Ready, hinit₂]
    exact hinit₁
  · rw [hother₂ r h2]
    exact hother₁ r h1 h2

theorem view_eq_of_mem {s t : Kernel} (h : t.mem = s.mem) {q : Slot}
    (hq : (t.proc q).state ≠ .unused) : (t.proc q).view = (s.proc q).view := by
  have hview := mem_proc hq
  rw [h] at hview
  exact (view_of_mem hview).2.symm

/-- A child that is the only zombie is the one that `wait` finds. -/
theorem zombieChild_of_sole {s : Kernel} {q z : Slot} (hparent : (s.proc z).parent = some q)
    (hz : (s.proc z).state = .zombie) (hsole : ∀ r, r ≠ z → (s.proc r).state ≠ .zombie) :
    zombieChild q s = some z := by
  have hsome : (zombieChild q s).isSome := by
    rw [zombieChild, List.find?_isSome]
    exact ⟨z, mem_slots z, by simp [hparent, hz]⟩
  obtain ⟨r, hr⟩ := Option.isSome_iff_exists.mp hsome
  by_cases hrz : r = z
  · rw [hr, hrz]
  · exact absurd (zombieChild_state hr) (hsole r hrz)

/-- The child exits, the first process grows to `USERTOP` and reaps it. -/
theorem exists_oversized_reap : ∃ s t, Unreaped kernelImage s ∧
    coreStep kernelImage (.wait initproc) s = some t ∧ OversizedReap ⟨s, .wait initproc, t⟩ := by
  obtain ⟨s₁, z, hs₁, hne, hinit₁, hready₁, hsz₁, htop₁, hparent₁, hztop₁, hother₁, hlen₁⟩ :=
    exists_child_with_region
  obtain ⟨s₂, hstep₂, hzombie₂, hparent₂, hready₂, hmem₂⟩ :=
    step_exit (L := kernelImage) hready₁ hne hparent₁
  have hs₂ := hs₁.step hstep₂ trivial
  have hinit₂ := hready₂ initproc hne.symm hinit₁
  have hview₂ := view_eq_of_mem hmem₂ hinit₂.ne_unused
  have hsz₂ : (s₂.proc initproc).sz = pgsize := (congrArg ProcMem.sz hview₂).trans hsz₁
  have htop₂ : (s₂.proc initproc).shmtop = usertop := (congrArg ProcMem.shmtop hview₂).trans htop₁
  have hztop₂ : (s₂.proc z).shmtop = usertop - pgsize :=
    (congrArg ProcMem.shmtop (view_eq_of_mem hmem₂ (by rw [hzombie₂]; simp))).trans hztop₁
  have hfl₂ : s₂.freelist = s₁.freelist := congrArg Mem.freelist hmem₂
  have hgrown : pageUp (pgsize + (0x9F000#32).toNat) = 160 := by decide
  have hone : pageUp pgsize = 1 := by decide
  obtain ⟨s₃, d₃, hstep₃, hproc₃, hother₃, -, -, hinit₃, -⟩ :=
    step_sbrk (n := 0x9F000#32) hs₂.reach.memOk hinit₂ (by decide) (by rw [hsz₂, htop₂]; decide)
      (by rw [hsz₂, hgrown, hone, hfl₂]; omega)
  have hs₃ := hs₂.step hstep₃ trivial
  have hsz₃ : (s₃.proc initproc).sz = usertop := by
    rw [hproc₃, hsz₂]
    change pgsize + (0x9F000#32).toNat = usertop
    decide
  -- all other slots are UNUSED, so `wait` can only find this child
  have hfind : zombieChild initproc s₃ = some z := by
    refine zombieChild_of_sole (by rw [hother₃ z hne, hparent₂]) (by rw [hother₃ z hne, hzombie₂])
      fun r hr hzombie ↦ ?_
    by_cases hinit : r = initproc
    · subst hinit
      rw [hinit₃.1] at hzombie
      cases hzombie
    · rw [hother₃ r hinit] at hzombie
      refine proc_mem_ne_none.mpr (by rw [hzombie]; simp) ?_
      rw [hmem₂]
      exact mem_of_unused (hother₁ r hinit hr)
  obtain ⟨t, ht⟩ := step_wait hs₃.reach.memOk hinit₃.1 hfind
  refine ⟨s₃, t, hs₃, ht, initproc, z, rfl, hfind, ?_⟩
  change (s₃.proc z).shmtop < (s₃.proc initproc).sz
  rw [hother₃ z hne, hztop₂, hsz₃]
  decide

/-- The free list then has a frame twice. -/
theorem not_frames_ok : ∃ s, Reachable (step kernelImage) (Booted kernelImage) s ∧
    ¬s.FramesOk := by
  obtain ⟨s, t, hs, hstep, hreap⟩ := exists_oversized_reap
  have hstep' : step kernelImage (.wait initproc) s = some t := hstep
  exact ⟨t, hs.sound.reachable.snoc hstep' trivial,
    not_framesOk_of_oversized hs.reach.memOk hstep hreap⟩

/-- **Frames are owned once exactly as long as no reap is oversized.** In a run from boot whose calls
keep within bounds, the free list is sound in every state if and only if no `wait` of the run reaps
a child whose `shmtop` lies below the size of the caller. -/
theorem Booted.frames_ok_iff {s₀ s : Kernel} {tr : List (Move Kernel Act)} (h₀ : Booted L s₀)
    (hrun : Run (step L) s₀ tr s) (hb : ∀ m ∈ tr, InBounds m) :
    (s₀.FramesOk ∧ ∀ m ∈ tr, m.dst.FramesOk) ↔ ∀ m ∈ tr, ¬OversizedReap m := by
  obtain ⟨-, -, hiff⟩ := run_frames h₀ (h₀.run_core hrun hb)
  exact (and_iff_right (h₀.memOk.framesOk h₀.uses_le)).trans hiff

/-- The run of `exists_oversized_reap`. -/
theorem frames_ok_iff_oversized : ∃ s₀ s tr, Booted kernelImage s₀ ∧
    Run (step kernelImage) s₀ tr s ∧ (∀ m ∈ tr, InBounds m) ∧ (∃ m ∈ tr, OversizedReap m) ∧
      ¬(s₀.FramesOk ∧ ∀ m ∈ tr, m.dst.FramesOk) := by
  obtain ⟨s, t, ⟨s₀, tr, h₀, hrun, hplain⟩, hstep, hreap⟩ := exists_oversized_reap
  have hb : ∀ m ∈ tr ++ [⟨s, .wait initproc, t⟩], InBounds m := by
    rw [List.forall_mem_append, List.forall_mem_singleton]
    exact ⟨fun m hm ↦ (hplain m hm).inBounds, trivial⟩
  have hstep' : step kernelImage (.wait initproc) s = some t := hstep
  have hrun' := (run_of_plain hrun hplain).snoc hstep'
  refine ⟨s₀, t, _, h₀, hrun', hb, ⟨_, by simp, hreap⟩, fun hok ↦ ?_⟩
  exact (Booted.frames_ok_iff h₀ hrun' hb).mp hok _ (by simp) hreap

end CS537.Shm
