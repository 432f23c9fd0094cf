import CS537.Shm.Steps

/-!
# The layout of the address spaces

The invariant of `Effect` is kept by every effect and holds after boot, so it holds in every
reachable state. With it come the address-space layout and the coherence of the shared regions:
whichever processes attach a region, and in whichever order, they see the frames recorded for it.
-/

open Finset Function Holding Tally

namespace CS537.Shm

variable {L : Link}

/-! ## One process among the others -/

/-- A layout depends on the region tables only for the regions attached. -/
theorem ProcOk.congr {pages pages' : Key → ℕ} {paddr paddr' : Key → ℕ → ℕ} {p : ProcMem}
    (h : ProcOk L pages paddr p) (hpages : ∀ k, p.shmemVaddr k ≠ 0 → pages' k = pages k)
    (hpaddr : ∀ k, p.shmemVaddr k ≠ 0 → ∀ i, i < pages k → paddr' k i = paddr k i) :
    ProcOk L pages' paddr' p := by
  refine ⟨h.space, h.kstack, h.sz_pos, h.sz_le, h.top_aligned, h.aligned, ?_, h.gap,
    fun k hk j hj ↦ ?_⟩
  · refine h.tiling.congr_len fun k hk ↦ ?_
    have hne : p.shmemVaddr k ≠ 0 := by
      intro h0
      rw [ProcMem.base, if_pos h0] at hk
      cases hk
    rw [regionLen, hpages k hne, regionLen]
  · rw [hpages k hk] at hj ⊢
    rw [hpaddr k hk _ (by omega)]
    exact h.entry k hk j hj

theorem attached_update (m : Mem) (q : Slot) (o : Option ProcMem) (k : Key) :
    tally (weight k) (update m.proc q o) + weight k (m.proc q) = m.attached k + weight k o :=
  tally_update (weight k) m.proc q o

theorem attachedTo_le (v : Key → ℕ) (k : Key) : attachedTo v k ≤ 1 := by
  rw [attachedTo]
  split <;> omega

namespace MemOk

variable {m : Mem}

/-- Who holds the last reference to a region is the only process that has it attached. -/
theorem sole (h : MemOk L m) {q r : Slot} {p p' : ProcMem} (hq : m.proc q = some p)
    (hr : m.proc r = some p') (hne : r ≠ q) {k : Key} (hlast : LastRef p.shmemVaddr m.count k) :
    p'.shmemVaddr k = 0 := by
  by_contra hk
  have h1 : weight k (m.proc r) + weight k (m.proc q) ≤ m.attached k :=
    add_le_tally (weight k) m.proc hne
  have h2 : weight k (m.proc q) = 1 := by
    rw [hq]
    exact attachedTo_of_ne hlast.1
  have h3 : weight k (m.proc r) = 1 := by
    rw [hr]
    exact attachedTo_of_ne hk
  have h4 := h.attached_le k
  have h5 := hlast.2
  omega

/-- Leaving regions does not disturb the other processes. -/
theorem leave_other (h : MemOk L m) {q r : Slot} {p p' : ProcMem} (hq : m.proc q = some p)
    (hr : m.proc r = some p') (hne : r ≠ q) :
    ProcOk L (m.leave p.shmemVaddr).pages (m.leave p.shmemVaddr).paddr p' := by
  refine (h.procs r p' hr).congr (fun k _ ↦ rfl) (fun k hk i hi ↦ if_neg ?_)
  rintro ⟨hlast, -⟩
  exact hk (h.sole hq hr hne hlast)

theorem leave_region (h : MemOk L m) {p : ProcMem} {k : Key}
    (hk : 0 < (m.leave p.shmemVaddr).count k) :
    0 < (m.leave p.shmemVaddr).pages k ∧
      ∀ i, i < (m.leave p.shmemVaddr).pages k → L.Valid ((m.leave p.shmemVaddr).paddr k i) := by
  have hcount : 0 < m.count k - attachedTo p.shmemVaddr k := hk
  obtain ⟨hpos, hvalid⟩ := h.region k (by omega)
  refine ⟨hpos, fun i hi ↦ ?_⟩
  have hlast : ¬(LastRef p.shmemVaddr m.count k ∧ i < m.pages k) := by
    rintro ⟨⟨hne, hone⟩, -⟩
    rw [attachedTo_of_ne hne, hone] at hcount
    omega
  change L.Valid (if LastRef p.shmemVaddr m.count k ∧ i < m.pages k then 0 else m.paddr k i)
  rw [if_neg hlast]
  exact hvalid i hi

theorem leave_spare (h : MemOk L m) {p : ProcMem} {k : Key} {i : ℕ}
    (hk : (m.leave p.shmemVaddr).count k = 0 ∨ (m.leave p.shmemVaddr).pages k ≤ i) :
    (m.leave p.shmemVaddr).paddr k i = 0 := by
  change m.count k - attachedTo p.shmemVaddr k = 0 ∨ m.pages k ≤ i at hk
  change (if LastRef p.shmemVaddr m.count k ∧ i < m.pages k then 0 else m.paddr k i) = 0
  split
  · rfl
  · rename_i hlast
    -- not the last reference: the counter was 0 before, or the entry lies behind the region
    refine h.spare k i ?_
    by_cases hv : p.shmemVaddr k = 0
    · rwa [attachedTo, if_neg fun h ↦ h hv, Nat.cast_zero, sub_zero] at hk
    · rw [attachedTo_of_ne hv] at hk
      refine .inr (hk.elim (fun hc ↦ ?_) id)
      by_contra hi
      exact hlast ⟨⟨hv, by omega⟩, by omega⟩

/-- A counter that `fork` has raised for the child was positive for the parent. -/
theorem count_pos_of_raised (h : MemOk L m) {q : Slot} {p : ProcMem} (hq : m.proc q = some p)
    {k : Key} (hk : 0 < m.count k + attachedTo p.shmemVaddr k) : 0 < m.count k := by
  by_cases hv : p.shmemVaddr k = 0
  · rw [attachedTo, if_neg (fun h ↦ h hv)] at hk
    omega
  · exact h.count_pos hq hv

/-- A counter that is 0 after it has been raised was 0 before. -/
theorem count_eq_zero (h : MemOk L m) {k : Key} {n : ℕ} (hk : m.count k + n = 0) :
    m.count k = 0 := by
  have := h.attached_le k
  omega

end MemOk

/-! ## Every effect keeps the invariant -/

theorem shrunk_trans_valid {m m' : Freelist} (h : ∀ f, m'.count f = m.count f)
    (hm : ∀ f ∈ m, L.Valid f) : ∀ f ∈ m', L.Valid f := fun f hf ↦ hm f (by
  rw [← List.count_pos_iff, ← h]
  exact List.count_pos_iff.mpr hf)

/-- The layout of the child of a `fork`. -/
theorem ProcOk.forked {pages : Key → ℕ} {paddr : Key → ℕ → ℕ} {p : ProcMem} {m fl : Freelist}
    {d : PageDir} {r : ℕ} (h : ProcOk L pages paddr p)
    (hcopy : Copied L p.shmtop p.sz p.pgdir m fl d) (hr : L.Valid r) :
    ProcOk L pages paddr { p with pgdir := d, kstack := r } := by
  refine ⟨hcopy.space, hr, h.sz_pos, h.sz_le, h.top_aligned, h.aligned, h.tiling,
    fun v h1 h2 ↦ hcopy.gap v h1 h2, fun k hk j hj ↦ ?_⟩
  have hbase : p.base k = some (p.shmemVaddr k) := if_neg hk
  obtain ⟨h1, h2, -⟩ := h.tiling.fits k _ hbase
  have h3 := h.aligned k
  have h4 := h.top_aligned
  have hpage : p.shmtop / pgsize ≤ p.shmemVaddr k / pgsize + j ∧
      p.shmemVaddr k / pgsize + j < 160 := by
    simp only [regionLen, pgsize, usertop] at *
    omega
  simp only
  rw [hcopy.shared _ hpage.1 hpage.2]
  exact h.entry k hk j hj

/-- The layout after the private pages have changed, the shared ones have not. -/
theorem ProcOk.resize {pages : Key → ℕ} {paddr : Key → ℕ → ℕ} {p : ProcMem} {d : PageDir} {sz : ℕ}
    (h : ProcOk L pages paddr p) (hd : Space L d) (hpos : 0 < sz) (hle : sz ≤ p.shmtop)
    (hshared : ∀ v, p.shmtop / pgsize ≤ v → d.pte v = p.pgdir.pte v)
    (hgap : ∀ v, pageUp sz ≤ v → v < p.shmtop / pgsize → d.pte v = none) :
    ProcOk L pages paddr { p with pgdir := d, sz := sz } := by
  refine ⟨hd, h.kstack, hpos, hle, h.top_aligned, h.aligned, h.tiling, hgap, fun k hk j hj ↦ ?_⟩
  have hbase : p.base k = some (p.shmemVaddr k) := if_neg hk
  obtain ⟨h1, -, -⟩ := h.tiling.fits k _ hbase
  have hpage : p.shmtop / pgsize ≤ p.shmemVaddr k / pgsize + j := by
    simp only [pgsize] at *
    omega
  simp only
  rw [hshared _ hpage]
  exact h.entry k hk j hj

/-- The layout of a process that `exec` has given a new image. -/
theorem ProcOk.execed {pages : Key → ℕ} {paddr : Key → ℕ → ℕ} {top sz r : ℕ} {m fl : Freelist}
    {d : PageDir} (hb : Built L top sz m fl d) (htop : top ≤ usertop) (hr : L.Valid r) :
    ProcOk L pages paddr ⟨sz, d, r, fun _ ↦ 0, usertop⟩ := by
  have haligned : usertop % pgsize = 0 := by decide
  have hpages : usertop / pgsize = 160 := by decide
  exact ⟨hb.space, hr, hb.sz_pos, hb.sz_le.trans htop, haligned, by simp,
    Tiling.empty (regionLen pages) usertop, fun v h1 h2 ↦ hb.gap v h1 (hpages ▸ h2), by simp⟩

/-- A region attached at an address that is not 0. -/
theorem base_attach (p : ProcMem) (k : Key) (d : PageDir) {top : ℕ} (htop : top ≠ 0) :
    ({ p with
      pgdir := d
      shmemVaddr := update p.shmemVaddr k top
      shmtop := top } : ProcMem).base = update p.base k (some top) := by
  funext k'
  simp only [ProcMem.base]
  by_cases hk' : k' = k
  · subst hk'
    rw [update_self, update_self, if_neg htop]
  · rw [update_of_ne hk', update_of_ne hk', ProcMem.base]

theorem regionLen_update (pages : Key → ℕ) (k : Key) (n : ℕ) :
    regionLen (update pages k n) = update (regionLen pages) k (n * pgsize) := by
  funext k'
  rw [regionLen]
  by_cases hk' : k' = k
  · subst hk'
    rw [update_self, update_self]
  · rw [update_of_ne hk', update_of_ne hk', regionLen]

/-- The layout of a process that `shmgetat` has attached to the region `k`. -/
theorem ProcOk.attached {pages : Key → ℕ} {paddr : Key → ℕ → ℕ} {p : ProcMem} {k : Key} {n : ℕ}
    {row : ℕ → ℕ} {d : PageDir} {m fl : Freelist} {fresh : Bool} (h : ProcOk L pages paddr p)
    (hk : p.shmemVaddr k = 0) (hn : 0 < n) (hroom : p.sz + n * pgsize ≤ p.shmtop)
    (hrow : RowFor L fresh n 0 m (paddr k) fl row)
    (hframe : d.frame = p.pgdir.frame) (htab : d.tab = p.pgdir.tab)
    (hpte : ∀ u, d.pte u = if p.shmtop / pgsize - n ≤ u ∧ u < p.shmtop / pgsize then
      some ⟨row (p.shmtop / pgsize - 1 - u), true, true⟩ else p.pgdir.pte u) :
    ProcOk L (update pages k n) (update paddr k row) { p with
      pgdir := d
      shmemVaddr := update p.shmemVaddr k (p.shmtop - n * pgsize)
      shmtop := p.shmtop - n * pgsize } := by
  have hpos := h.sz_pos
  have halign := h.top_aligned
  have htop := h.top_le
  have hbase := base_attach p k d (show p.shmtop - n * pgsize ≠ 0 by omega)
  refine ⟨?_, h.kstack, hpos, ?_, ?_, fun k' ↦ ?_, ?_, fun v h1 h2 ↦ ?_, fun k' hk' j hj ↦ ?_⟩
  · refine h.space.of_pte hframe htab (fun v hv ↦ ?_) (fun v hv q hq ↦ ?_)
    · rw [hpte, if_neg]
      simp only [pgsize, usertop] at *
      omega
    · rw [hpte] at hq
      split at hq
      · rename_i hin
        obtain rfl := Option.some.inj hq
        exact ⟨hrow.valid _ (Nat.zero_le _) (by omega), rfl, rfl⟩
      · exact h.space.user v hv q hq
  · simp only
    omega
  · simp only [pgsize] at *
    omega
  · simp only
    by_cases hk' : k' = k
    · subst hk'
      rw [update_self]
      simp only [pgsize] at *
      omega
    · rw [update_of_ne hk']
      exact h.aligned k'
  -- the region is laid right below the others
  · rw [hbase, regionLen_update]
    refine h.tiling.push (if_pos hk) ?_ (by omega)
    simp only [pgsize]
    omega
  · simp only at h1 h2
    rw [hpte, if_neg]
    · refine h.gap v h1 ?_
      simp only [pgsize] at *
      omega
    · simp only [pgsize] at *
      omega
  -- the pages of the new region hold its row in reverse, the others have not moved
  · simp only at hk' hj ⊢
    by_cases hkk : k' = k
    · subst hkk
      rw [update_self] at hj ⊢
      rw [update_self, update_self, hpte, if_pos]
      · have hidx : p.shmtop / pgsize - 1 - ((p.shmtop - n * pgsize) / pgsize + j) = n - 1 - j := by
          simp only [pgsize] at *
          omega
        rw [hidx]
      · simp only [pgsize] at *
        omega
    · rw [update_of_ne hkk] at hk' hj ⊢
      rw [update_of_ne hkk, update_of_ne hkk, hpte, if_neg]
      · exact h.entry k' hk' j hj
      · obtain ⟨h1, -, -⟩ := h.tiling.fits k' _ (if_neg hk')
        simp only [pgsize] at *
        omega

/-- The invariant with the processes other than `q` taken over. -/
theorem MemOk.of_update {m m' : Mem} {q : Slot} {o : Option ProcMem} (h : MemOk L m)
    (hproc : m'.proc = update m.proc q o) (hfree : ∀ f ∈ m'.freelist, L.Valid f)
    (hself : ∀ p, o = some p → ProcOk L m'.pages m'.paddr p)
    (hother : ∀ r p, r ≠ q → m.proc r = some p → ProcOk L m'.pages m'.paddr p)
    (hpages : ∀ k, m'.pages k ≤ shmemMaxPages)
    (hregion : ∀ k, 0 < m'.count k → 0 < m'.pages k ∧ ∀ i, i < m'.pages k → L.Valid (m'.paddr k i))
    (hspare : ∀ k i, m'.count k = 0 ∨ m'.pages k ≤ i → m'.paddr k i = 0)
    (hcount : ∀ k, (weight k o : ℤ) - weight k (m.proc q) ≤ m'.count k - m.count k)
    (hlt : ∀ k, m'.count k < 2 ^ 31) : MemOk L m' := by
  refine ⟨hfree, fun r p hr ↦ ?_, hpages, hregion, hspare, fun k ↦ ?_, hlt⟩
  · rw [hproc] at hr
    by_cases hrq : r = q
    · subst hrq
      rw [update_self] at hr
      exact hself p hr
    · rw [update_of_ne hrq] at hr
      exact hother r p hrq hr
  · have h1 := attached_update m q o k
    have h2 := h.attached_le k
    have h3 := hcount k
    have h4 : m'.attached k = tally (weight k) (update m.proc q o) := by
      rw [← hproc]
      rfl
    omega

/-- The invariant when `q` keeps its regions and only its private pages change. -/
theorem MemOk.resize {m : Mem} {q : Slot} {p p' : ProcMem} {fl : Freelist} (h : MemOk L m)
    (hq : m.proc q = some p) (hfree : ∀ f ∈ fl, L.Valid f) (hp' : ProcOk L m.pages m.paddr p')
    (hvaddr : p'.shmemVaddr = p.shmemVaddr) :
    MemOk L { m with freelist := fl, proc := update m.proc q (some p') } := by
  refine h.of_update rfl hfree (fun p₁ hp₁ ↦ ?_) (fun r p₁ _ hr ↦ h.procs r p₁ hr) h.pages_le
    h.region h.spare (fun k ↦ ?_) h.count_lt
  · obtain rfl := Option.some.inj hp₁
    exact hp'
  · rw [hq]
    change (attachedTo p'.shmemVaddr k : ℤ) - attachedTo p.shmemVaddr k ≤ m.count k - m.count k
    rw [hvaddr]
    omega

/-- The invariant when `q` leaves its regions and what replaces it has none. -/
theorem MemOk.of_leave {m : Mem} {q : Slot} {p : ProcMem} {fl : Freelist} {o : Option ProcMem}
    (h : MemOk L m) (hq : m.proc q = some p) (hfree : ∀ f ∈ fl, L.Valid f)
    (hself : ∀ p', o = some p' →
      ProcOk L (m.leave p.shmemVaddr).pages (m.leave p.shmemVaddr).paddr p')
    (hnone : ∀ k, weight k o = 0) :
    MemOk L { m.leave p.shmemVaddr with freelist := fl, proc := update m.proc q o } := by
  refine h.of_update rfl hfree hself (fun r p' hr hr' ↦ h.leave_other hq hr' hr) h.pages_le
    (fun k hk ↦ h.leave_region hk) (fun k i hk ↦ h.leave_spare hk) (fun k ↦ ?_) (fun k ↦ ?_)
  · rw [hq, hnone]
    change ((0 : ℕ) : ℤ) - attachedTo p.shmemVaddr k
      ≤ m.count k - attachedTo p.shmemVaddr k - m.count k
    omega
  · have hlt := h.count_lt k
    change m.count k - attachedTo p.shmemVaddr k < 2 ^ 31
    omega

/-- The invariant when the counters are raised for a child that does not exist. -/
theorem MemOk.raise {m : Mem} {q : Slot} {p : ProcMem} {fl : Freelist} (h : MemOk L m)
    (hq : m.proc q = some p) (hfree : ∀ f ∈ fl, L.Valid f)
    (hlt : ∀ k, m.count k + attachedTo p.shmemVaddr k < 2 ^ 31) :
    MemOk L { m with freelist := fl, count := fun k ↦ m.count k + attachedTo p.shmemVaddr k } := by
  refine ⟨hfree, h.procs, h.pages_le, fun k hk ↦ h.region k (h.count_pos_of_raised hq hk),
    fun k i hk ↦ h.spare k i (hk.imp_left h.count_eq_zero), fun k ↦ ?_, hlt⟩
  have hle := h.attached_le k
  change (m.attached k : ℤ) ≤ m.count k + attachedTo p.shmemVaddr k
  omega

/-- The invariant after `fork`: the child has the parent's regions. -/
theorem MemOk.fork {m : Mem} {q np : Slot} {p p' : ProcMem} {fl : Freelist} (h : MemOk L m)
    (hq : m.proc q = some p) (hnp : m.proc np = none) (hfree : ∀ f ∈ fl, L.Valid f)
    (hp' : ProcOk L m.pages m.paddr p') (hvaddr : p'.shmemVaddr = p.shmemVaddr)
    (hlt : ∀ k, m.count k + attachedTo p.shmemVaddr k < 2 ^ 31) :
    MemOk L { m with
      freelist := fl
      proc := update m.proc np (some p')
      count := fun k ↦ m.count k + attachedTo p.shmemVaddr k } := by
  refine h.of_update rfl hfree (fun p₁ hp₁ ↦ ?_) (fun r p₁ _ hr ↦ h.procs r p₁ hr) h.pages_le
    (fun k hk ↦ h.region k (h.count_pos_of_raised hq hk))
    (fun k i hk ↦ h.spare k i (hk.imp_left h.count_eq_zero)) (fun k ↦ ?_) hlt
  · obtain rfl := Option.some.inj hp₁
    exact hp'
  · rw [hnp]
    change (attachedTo p'.shmemVaddr k : ℤ) - 0
      ≤ m.count k + attachedTo p.shmemVaddr k - m.count k
    rw [hvaddr]
    omega

/-- The invariant after `shmgetat` has attached `q` to the region `k`. -/
theorem MemOk.attach {m : Mem} {q : Slot} {p p' : ProcMem} {fresh : Bool} {k : Key} {n : ℕ}
    {row : ℕ → ℕ} {fl : Freelist} (h : MemOk L m) (hq : m.proc q = some p)
    (hfresh : fresh = true → m.count k = 0 ∧ n ≤ shmemMaxPages)
    (hold : fresh = false → m.count k ≠ 0 ∧ n = m.pages k) (hn : 0 < n)
    (hrow : RowFor L fresh n 0 m.freelist (m.paddr k) fl row)
    (hp' : ProcOk L (update m.pages k n) (update m.paddr k row) p')
    (hvaddr : ∀ k', k' ≠ k → p'.shmemVaddr k' = p.shmemVaddr k') (hlt : m.count k + 1 < 2 ^ 31) :
    MemOk L ⟨fl, update m.proc q (some p'), update m.count k (m.count k + 1), update m.pages k n,
      update m.paddr k row⟩ := by
  -- nobody has a region attached that is being made
  have hsame : ∀ r p₁, m.proc r = some p₁ → p₁.shmemVaddr k ≠ 0 →
      n = m.pages k ∧ ∀ i, i < n → row i = m.paddr k i := by
    intro r p₁ hr hk'
    have hpos := h.count_pos hr hk'
    cases fresh with
    | true =>
      have := (hfresh rfl).1
      omega
    | false => exact ⟨(hold rfl).2, fun i hi ↦ congrFun (hrow.old rfl).2 i⟩
  have hle : n ≤ shmemMaxPages := by
    cases fresh with
    | true => exact (hfresh rfl).2
    | false => exact (hold rfl).2 ▸ h.pages_le k
  refine h.of_update rfl hrow.free (fun p₁ hp₁ ↦ ?_) (fun r p₁ _ hr ↦ ?_) (fun k' ↦ ?_)
    (fun k' hk' ↦ ?_) (fun k' i hi ↦ ?_) (fun k' ↦ ?_) (fun k' ↦ ?_)
  · obtain rfl := Option.some.inj hp₁
    exact hp'
  · refine (h.procs r p₁ hr).congr (fun k' hk' ↦ ?_) (fun k' hk' i hi ↦ ?_)
    · by_cases hkk : k' = k
      · subst hkk
        exact (update_self ..).trans (hsame r p₁ hr hk').1
      · exact update_of_ne hkk _ _
    · by_cases hkk : k' = k
      · subst hkk
        obtain ⟨hn', hrow'⟩ := hsame r p₁ hr hk'
        exact (congrFun (update_self ..) i).trans (hrow' i (by omega))
      · exact congrFun (update_of_ne hkk _ _) i
  · change update m.pages k n k' ≤ shmemMaxPages
    by_cases hkk : k' = k
    · rw [hkk, update_self]
      exact hle
    · rw [update_of_ne hkk]
      exact h.pages_le k'
  · change 0 < update m.count k (m.count k + 1) k' at hk'
    change 0 < update m.pages k n k' ∧
      ∀ i, i < update m.pages k n k' → L.Valid (update m.paddr k row k' i)
    by_cases hkk : k' = k
    · rw [hkk, update_self, update_self]
      exact ⟨hn, fun i hi ↦ hrow.valid i (Nat.zero_le i) (by omega)⟩
    · rw [update_of_ne hkk] at hk' ⊢
      rw [update_of_ne hkk]
      exact h.region k' hk'
  · change update m.count k (m.count k + 1) k' = 0 ∨ update m.pages k n k' ≤ i at hi
    change update m.paddr k row k' i = 0
    by_cases hkk : k' = k
    · subst hkk
      rw [update_self, update_self] at hi
      -- the raised counter is positive, so the entry lies behind the region
      have hnonneg := h.attached_le k'
      have hi' : n ≤ i := hi.elim (fun h ↦ by omega) id
      rw [update_self, hrow.other i (by omega)]
      refine h.spare k' i ?_
      cases fresh with
      | true => exact .inl (hfresh rfl).1
      | false => exact .inr ((hold rfl).2 ▸ hi')
    · rw [update_of_ne hkk, update_of_ne hkk] at hi
      rw [update_of_ne hkk]
      exact h.spare k' i hi
  · rw [hq]
    change (attachedTo p'.shmemVaddr k' : ℤ) - attachedTo p.shmemVaddr k'
      ≤ update m.count k (m.count k + 1) k' - m.count k'
    by_cases hkk : k' = k
    · rw [hkk, update_self]
      have := attachedTo_le p'.shmemVaddr k
      omega
    · rw [update_of_ne hkk, attachedTo, attachedTo, hvaddr k' hkk]
      omega
  · change update m.count k (m.count k + 1) k' < 2 ^ 31
    by_cases hkk : k' = k
    · rwa [hkk, update_self]
    · rw [update_of_ne hkk]
      exact h.count_lt k'

/-- The layout after `allocuvm` has mapped the pages up to `newsz`. -/
theorem ProcOk.grown {pages : Key → ℕ} {paddr : Key → ℕ → ℕ} {p : ProcMem} {newsz : ℕ}
    {l : List ℕ} {m fl : Freelist} {d : PageDir} (h : ProcOk L pages paddr p)
    (hm : ∀ f ∈ m, L.Valid f) (hle : newsz ≤ p.shmtop) (hge : p.sz ≤ newsz)
    (hmap : Mapped (pageUp p.sz) l m p.pgdir fl d) (hlen : l.length = pageUp newsz - pageUp p.sz) :
    ProcOk L pages paddr { p with pgdir := d, sz := newsz } := by
  have hpos := h.sz_pos
  have htop := h.top_le
  have hmono := pageUp_mono hge
  have hup := pageUp_le_div hle h.top_aligned
  have h160 : p.shmtop / pgsize ≤ 160 := by
    simp only [pgsize, usertop] at *
    omega
  refine h.resize (hmap.space h.space (by omega) hm) (by omega) hle (fun v hv ↦ ?_)
    (fun v h1 h2 ↦ ?_)
  · rw [hmap.pte, if_neg (by omega)]
  · rw [hmap.pte, if_neg (by omega)]
    exact h.gap v (by omega) h2

/-- The layout after `deallocuvm` has unmapped the pages from `newsz` on. -/
theorem ProcOk.shrunk {pages : Key → ℕ} {paddr : Key → ℕ → ℕ} {p : ProcMem} {newsz : ℕ}
    {m fl : Freelist} {d : PageDir} (h : ProcOk L pages paddr p) (hlt : newsz < p.sz)
    (hfreed : Freed L (rounds (pageUp newsz) p.sz) (pageUp newsz) m p.pgdir fl d) :
    ProcOk L pages paddr { p with pgdir := d, sz := if newsz = 0 then p.sz else newsz } := by
  have hpos := h.sz_pos
  have hle := h.sz_le
  have htop := h.top_le
  have hmono := pageUp_mono (Nat.le_of_lt hlt)
  have hup := pageUp_le_div hle h.top_aligned
  have h160 : p.shmtop / pgsize ≤ 160 := by
    simp only [pgsize, usertop] at *
    omega
  have hrange : pageUp newsz + rounds (pageUp newsz) p.sz = pageUp p.sz := by
    rw [rounds]
    omega
  have hgap : ∀ v, pageUp newsz ≤ v → v < p.shmtop / pgsize → d.pte v = none := by
    intro v h1 h2
    rw [hfreed.pte]
    split
    · rfl
    · exact h.gap v (by omega) h2
  -- down to 0 the size stays, and the pages below it are gone all the same
  refine h.resize (hfreed.space h.space (by omega)) ?_ ?_ (fun v hv ↦ ?_) (fun v h1 h2 ↦ ?_)
  · split <;> omega
  · split <;> omega
  · rw [hfreed.pte, if_neg (by omega)]
  · refine hgap v (le_trans ?_ h1) h2
    split <;> omega

theorem Effect.memOk {c : Option Slot} {a : Act} {m m' : Mem} (he : Effect L c a m m')
    (h : MemOk L m) : MemOk L m' := by
  cases he with
  | idle => exact h
  | forkFail hq _ _ _ hshrunk hlt => exact h.raise hq hshrunk.valid hlt
  | @forked q _ _ p r _ _ _ hq hnp hfl hcopy hlt =>
    have hr : L.Valid r := h.free r (by rw [hfl]; simp)
    exact h.fork hq hnp hcopy.valid ((h.procs q p hq).forked hcopy hr) rfl hlt
  | execFail hshrunk =>
    exact ⟨hshrunk.valid, h.procs, h.pages_le, h.region, h.spare, h.attached_le,
      h.count_lt⟩
  | @execed q _ _ _ p _ _ _ _ _ hq hbuilt hleave hdir =>
    have hp := h.procs q p hq
    refine h.of_leave hq (fun f hf ↦ ?_) (fun p' hp' ↦ ?_) (fun k ↦ by simp [weight, attachedTo])
    · rcases List.mem_append.mp hf with hf | hf
      · exact hdir.valid f hf
      · exact (List.mem_append.mp hf).elim (hleave.valid f) (hbuilt.valid f)
    · obtain rfl := Option.some.inj hp'
      exact .execed hbuilt hp.top_le hp.kstack
  | @reaped _ z _ _ ch _ _ _ _ hz hleave hdir =>
    have hch := h.procs z ch hz
    refine h.of_leave hz (fun f hf ↦ ?_) (fun p' hp' ↦ by cases hp') (fun k ↦ rfl)
    rcases List.mem_append.mp hf with hf | hf
    · exact hleave.valid f hf
    rcases List.mem_append.mp hf with hf | hf
    · exact hdir.valid f hf
    rcases List.mem_cons.mp hf with rfl | hf
    · exact hch.kstack
    · exact h.free f hf
  | @grown q _ _ p _ _ _ _ hq hle hge hmap hlen =>
    have hfree := fun f hf ↦ h.free f (by rw [hmap.taken]; exact List.mem_append_right _ hf)
    exact h.resize hq hfree ((h.procs q p hq).grown h.free hle hge hmap hlen) rfl
  | @growFull q _ _ p _ d hq hframe htab hpte hcount =>
    have hp := h.procs q p hq
    have hspace : Space L d := hp.space.of_pte hframe htab (fun v _ ↦ by rw [hpte])
      (fun v hv pt hpt ↦ hp.space.user v hv pt (by rw [← hpte]; exact hpt))
    refine h.resize hq (shrunk_trans_valid hcount h.free) ?_ rfl
    exact hp.resize hspace hp.sz_pos hp.sz_le (fun v _ ↦ by rw [hpte])
      (fun v h1 h2 ↦ by rw [hpte]; exact hp.gap v h1 h2)
  | @shrunk q _ _ p _ _ _ hq hlt hfreed =>
    exact h.resize hq (hfreed.valid h.free) ((h.procs q p hq).shrunk hlt hfreed) rfl
  | @attached q _ _ _ p _ _ _ _ _ _ hq hk hfresh hold hn hroom hrow hframe htab hpte hlt =>
    exact h.attach hq hfresh hold hn hrow
      ((h.procs q p hq).attached hk hn hroom hrow hframe htab hpte)
      (fun k' hk' ↦ update_of_ne hk' _ _) hlt

end CS537.Shm
