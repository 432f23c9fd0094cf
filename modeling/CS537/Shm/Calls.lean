import CS537.Lib.Sweep
import CS537.Shm.Effect
import Mathlib.Algebra.Order.BigOperators.Group.Finset

/-!
# What `shmgetat` and `fork` come to

In a state that satisfies the invariant, each of the two calls either changes nothing, panics for a
reason that can be told from the state before it, or ends in a state described here.
-/

open Finset Function Wrapping Holding

namespace CS537.Shm

variable {L : Link}

/-! ## The process that makes the call -/

theorem ProcOk.top_le {pages : Key → ℕ} {paddr : Key → ℕ → ℕ} {p : ProcMem}
    (h : ProcOk L pages paddr p) : p.shmtop ≤ usertop := h.tiling.le

/-- The pages of the shared area are all mapped. -/
theorem ProcOk.shared {pages : Key → ℕ} {paddr : Key → ℕ → ℕ} {p : ProcMem}
    (h : ProcOk L pages paddr p) {v : ℕ} (h1 : p.shmtop / pgsize ≤ v) (h2 : v < 160) :
    ∃ k j, p.shmemVaddr k ≠ 0 ∧ j < pages k ∧ v = p.shmemVaddr k / pgsize + j ∧
      p.pgdir.pte v = some ⟨paddr k (pages k - 1 - j), true, true⟩ := by
  have htop := h.top_aligned
  obtain ⟨k, b, hb, hle, hlt⟩ := h.tiling.cover (v * pgsize)
    (by simp only [pgsize] at *; omega) (by simp only [pgsize, usertop] at *; omega)
  have hk : p.shmemVaddr k ≠ 0 := by
    intro h0
    rw [ProcMem.base, if_pos h0] at hb
    cases hb
  rw [ProcMem.base, if_neg hk, Option.some.injEq] at hb
  subst hb
  have halign := h.aligned k
  have hv : v = p.shmemVaddr k / pgsize + (v - p.shmemVaddr k / pgsize) := by
    simp only [pgsize] at *
    omega
  have hj : v - p.shmemVaddr k / pgsize < pages k := by
    simp only [regionLen, pgsize] at *
    omega
  have hentry := h.entry k hk _ hj
  rw [← hv] at hentry
  exact ⟨k, v - p.shmemVaddr k / pgsize, hk, hj, hv, hentry⟩

/-- Below `shmtop` there is nothing above the size. -/
theorem ProcOk.absent {pages : Key → ℕ} {paddr : Key → ℕ → ℕ} {p : ProcMem}
    (h : ProcOk L pages paddr p) {newsz v : ℕ} (hle : newsz ≤ p.shmtop) (h1 : pageUp p.sz ≤ v)
    (h2 : v < pageUp newsz) : p.pgdir.pte v = none := by
  have halign := h.top_aligned
  refine h.gap v h1 ?_
  simp only [pageUp, pgsize] at *
  omega

/-- The shared area has at most 32 pages. -/
theorem ProcOk.top_ge {pages : Key → ℕ} {paddr : Key → ℕ → ℕ} {p : ProcMem}
    (h : ProcOk L pages paddr p) (hpages : ∀ k, pages k ≤ shmemMaxPages) : 0x80000 ≤ p.shmtop := by
  have hsum : ∑ k, (if (p.base k).isSome then regionLen pages k else 0) ≤ ∑ _k : Key, 16384 := by
    refine sum_le_sum fun k _ ↦ ?_
    have := hpages k
    split <;> simp only [regionLen, shmemMaxPages, pgsize] at * <;> omega
  have hconst : ∑ _k : Key, 16384 = 131072 := by
    rw [sum_const, card_univ, Fintype.card_fin]
    rfl
  have htotal := h.tiling.total
  rw [hconst] at hsum
  simp only [usertop] at htotal
  omega

/-! ## `shmgetat` -/

/-- What the end of `shmgetat` comes to. -/
inductive AttachOutcome (L : Link) (fresh : Bool) (q : Slot) (k : Key) (n : ℕ) (s : Kernel) :
    Except String (Kernel × ℤ) → Prop
  | refused : (s.proc q).shmtop < (s.proc q).sz + n * pgsize →
      AttachOutcome L fresh q k n s (.ok (s, -1))
  | full {e : String} : fresh = true → s.freelist.length < n →
      AttachOutcome L fresh q k n s (.error e)
  | attached {t : Kernel} {d : PageDir} {row : ℕ → ℕ} {x : ℤ} :
      (s.proc q).sz + n * pgsize ≤ (s.proc q).shmtop →
      RowFor L fresh n 0 s.freelist (s.shmemPaddr k) t.freelist row →
      d.frame = (s.proc q).pgdir.frame → d.tab = (s.proc q).pgdir.tab →
      (∀ u, d.pte u =
        if (s.proc q).shmtop / pgsize - n ≤ u ∧ u < (s.proc q).shmtop / pgsize then
          some ⟨row ((s.proc q).shmtop / pgsize - 1 - u), true, true⟩
        else (s.proc q).pgdir.pte u) →
      t.proc q = { s.proc q with
        pgdir := d
        shmemVaddr := update (s.proc q).shmemVaddr k ((s.proc q).shmtop - n * pgsize)
        shmtop := (s.proc q).shmtop - n * pgsize } →
      (∀ r, r ≠ q → t.proc r = s.proc r) →
      t.shmemCount = update s.shmemCount k (toInt32 (s.shmemCount k + 1)) →
      t.shmemPages = update s.shmemPages k n → t.shmemPaddr = update s.shmemPaddr k row →
      AttachOutcome L fresh q k n s (.ok (t, x))

theorem attach_outcome (fresh : Bool) {q : Slot} {k : Key} {n : ℕ} {s : Kernel}
    (hok : MemOk L s.mem) (hq : (s.proc q).state ≠ .unused)
    (hfresh : fresh = true → n ≤ shmemMaxPages)
    (hold : fresh = false → s.shmemCount k ≠ 0 ∧ n = s.shmemPages k) (hn : 0 < n) :
    AttachOutcome L fresh q k n s (attach fresh q k n s) := by
  have hp := hok.procs q _ (mem_proc hq)
  have htop : (s.proc q).shmtop ≤ usertop := hp.top_le
  have hge : 0x80000 ≤ (s.proc q).shmtop := hp.top_ge hok.pages_le
  have halign : (s.proc q).shmtop % pgsize = 0 := hp.top_aligned
  have hn4 : n ≤ shmemMaxPages := by
    cases fresh with
    | true => exact hfresh rfl
    | false =>
      rw [(hold rfl).2]
      exact hok.pages_le k
  -- `shmtop` is never below `0x80000`, so the difference does not wrap
  have hsub : sub32 (s.proc q).shmtop (n * pgsize) = (s.proc q).shmtop - n * pgsize := by
    simp only [shmemMaxPages, pgsize, usertop] at *
    exact sub32_of_le (by omega) (by omega)
  have hpage : (s.proc q).shmtop = (s.proc q).shmtop / pgsize * pgsize := by
    simp only [pgsize] at *
    omega
  have hle160 : (s.proc q).shmtop / pgsize ≤ 160 := by
    simp only [pgsize, usertop] at *
    omega
  have hnle : n ≤ (s.proc q).shmtop / pgsize := by
    simp only [shmemMaxPages, pgsize] at *
    omega
  rw [attach]
  simp only [hsub]
  by_cases hroom : (s.proc q).shmtop - n * pgsize < (s.proc q).sz
  · rw [if_pos hroom]
    exact .refused (by omega)
  rw [if_neg hroom]
  have hroom' : (s.proc q).sz + n * pgsize ≤ (s.proc q).shmtop := by
    simp only [shmemMaxPages, pgsize] at *
    omega
  -- the pages below `shmtop` that the region takes are absent
  have hgap : ∀ u, (s.proc q).shmtop / pgsize - n ≤ u → u < (s.proc q).shmtop / pgsize →
      (s.proc q).pgdir.pte u = none := fun u h1 h2 ↦ hp.gap u (by
    simp only [Proc.view, pageUp, pgsize] at *
    omega) h2
  have hrows : fresh = false → ∀ j, 0 ≤ j → j < 0 + n → L.Valid (s.shmemPaddr k j) := by
    intro hf j _ hj
    obtain ⟨hc, hpages⟩ := hold hf
    have hpos : 0 < s.mem.count k := by
      have := hok.attached_le k
      have hne : s.mem.count k ≠ 0 := hc
      omega
    exact (hok.region k hpos).2 j (by
      have hpages' : s.mem.pages k = n := hpages.symm
      omega)
  have hloop := attachPages_outcome (k := k) (i := 0) s hp.space hok.free hle160 hnle hgap hrows
  change (_ ∧ _) ∨ ∃ m' d' row', attachPages fresh q k n 0 ((s.proc q).shmtop / pgsize * pgsize) s
    = _ ∧ _ at hloop
  rw [← hpage] at hloop
  rcases hloop with ⟨⟨e, he⟩, hf, hlen⟩ | ⟨m', d', row', hok', hrow, hframe, htab, hpte⟩
  · rw [he]
    exact .full hf hlen
  simp only [Nat.zero_add] at hpte
  generalize hs₁ : Kernel.setProc _ q _ = s₁ at hok'
  have hq₁ : s₁.proc q = { s.proc q with pgdir := d' } := by
    rw [← hs₁]
    exact Kernel.setProc_self ..
  have hother₁ : ∀ r, r ≠ q → s₁.proc r = s.proc r := by
    intro r hr
    rw [← hs₁]
    exact Kernel.setProc_of_ne _ _ hr
  have hcount₁ : s₁.shmemCount = s.shmemCount := by
    rw [← hs₁]
    rfl
  have hpages₁ : s₁.shmemPages = s.shmemPages := by
    rw [← hs₁]
    rfl
  have hpaddr₁ : s₁.shmemPaddr = update s.shmemPaddr k row' := by
    rw [← hs₁]
    rfl
  have hfl₁ : s₁.freelist = m' := by
    rw [← hs₁]
    rfl
  rw [hok', ok_bind]
  -- the counter is raised only after the pages have been mapped
  refine .attached hroom' (by rw [← hfl₁] at hrow; exact hrow) hframe htab hpte ?_
    (fun r hr ↦ ?_) ?_ ?_ hpaddr₁
  · rw [Kernel.setProc_self]
    simp only [Kernel.setPages, shmIncreaseCount, Kernel.setCount, hq₁]
  · rw [Kernel.setProc_of_ne _ _ hr]
    exact hother₁ r hr
  · exact hcount₁ ▸ rfl
  · exact hpages₁ ▸ rfl

/-! ## `fork` -/

/-- `allocproc` fails when every slot is taken, or when there is no frame for the stack. -/
theorem allocproc_cases (s : Kernel) :
    (∃ t, allocproc s = (t, none) ∧ t.mem = s.mem ∧
      ((∀ r, (s.proc r).state ≠ .unused) ∨ s.freelist = [])) ∨
    ∃ np r m, s.freelist = r :: m ∧ (s.proc np).state = .unused ∧
      allocproc s = ((s.bumpPid.setFreelist m).setProc np ((s.proc np).embryo s.nextpid r),
        some np) := by
  rw [allocproc]
  cases hfind : slots.find? (fun p ↦ (s.proc p).state = .unused) with
  | none =>
    refine .inl ⟨s, rfl, rfl, .inl fun r ↦ ?_⟩
    simpa using List.find?_eq_none.mp hfind r (mem_slots r)
  | some np =>
    have hnp : (s.proc np).state = .unused := by simpa using List.find?_some hfind
    cases hm : s.freelist with
    -- the slot is given back, the pid is not
    | nil =>
      refine .inl ⟨_, rfl, ?_, .inr rfl⟩
      refine (mem_setProc ?_).trans rfl
      exact (mem_of_unused rfl).trans (mem_of_unused hnp).symm
    | cons r m => exact .inr ⟨np, r, m, rfl, hnp, rfl⟩

/-- The slot `np` has changed, and the regions of `q` are counted once more. -/
structure Raised (q np : Slot) (s t : Kernel) : Prop where
  other : ∀ u, u ≠ np → t.proc u = s.proc u
  count : t.shmemCount = raiseCount (s.proc q).shmemVaddr keys s.shmemCount
  pages : t.shmemPages = s.shmemPages
  paddr : t.shmemPaddr = s.shmemPaddr

/-- What `fork` comes to once it has the slot `np` and the stack `r`, with the frames `m` left. When
`copyuvm` fails the counters stay raised. -/
inductive ForkOutcome (L : Link) (q np : Slot) (s : Kernel) (r : ℕ) (m : Freelist) :
    Except String (Kernel × ℤ) → Prop
  | absent {e : String} {v : ℕ} : v < pageUp (s.proc q).sz → (s.proc q).pgdir.pte v = none →
      ForkOutcome L q np s r m (.error e)
  | fail {t : Kernel} : m.length < 13 + pageUp (s.proc q).sz → Raised q np s t →
      (t.proc np).state = .unused → Shrunk L (r :: m) t.freelist →
      ForkOutcome L q np s r m (.ok (t, -1))
  | copied {t : Kernel} {d : PageDir} :
      Copied L (s.proc q).shmtop (s.proc q).sz (s.proc q).pgdir m t.freelist d → Raised q np s t →
      t.proc np = { (s.proc np).embryo s.nextpid r with
        shmemVaddr := (s.proc q).shmemVaddr
        shmtop := (s.proc q).shmtop
        pgdir := d
        sz := (s.proc q).sz
        parent := some q
        state := .runnable } →
      ForkOutcome L q np s r m (.ok (t, s.nextpid))

theorem forkInto_outcome {q np : Slot} {s s₁ : Kernel} {r : ℕ} {m : Freelist} (hok : MemOk L s.mem)
    (hq : (s.proc q).state ≠ .unused) (hfl : s.freelist = r :: m)
    (hnp : (s.proc np).state = .unused)
    (hs₁ : s₁ = (s.bumpPid.setFreelist m).setProc np ((s.proc np).embryo s.nextpid r)) :
    ForkOutcome L q np s r m (forkInto L q np s₁) := by
  have hp := hok.procs q _ (mem_proc hq)
  have hne : q ≠ np := by
    rintro rfl
    exact hq hnp
  have hvalid : ∀ f ∈ r :: m, L.Valid f := fun f hf ↦ hok.free f (by
    change f ∈ s.freelist
    rwa [hfl])
  have hq₁ : s₁.proc q = s.proc q := by
    rw [hs₁]
    exact Kernel.setProc_of_ne _ _ hne
  rw [forkInto]
  -- the counters go up before `copyuvm` is called
  rw [inheritKeys_eq hne nodup_keys s₁]
  generalize hs₂eq : Kernel.mk _ _ _ _ _ _ = s₂
  rw [hq₁] at hs₂eq
  have hq₂ : s₂.proc q = s.proc q := by
    rw [← hs₂eq]
    exact (update_of_ne hne _ _).trans hq₁
  have hcopy : copyKeys (s.proc q).shmemVaddr (s₁.proc np).shmemVaddr keys
      = (s.proc q).shmemVaddr := by
    funext k
    exact if_pos (mem_keys k)
  have hnp₂ : s₂.proc np = { (s.proc np).embryo s.nextpid r with
      shmemVaddr := (s.proc q).shmemVaddr } := by
    rw [← hs₂eq, hcopy, hs₁]
    simp only [update_self]
    rw [Kernel.setProc_self]
  have hfl₂ : s₂.freelist = m := by
    rw [← hs₂eq, hs₁]
    rfl
  have hraised₂ : Raised q np s s₂ := by
    rw [← hs₂eq, hs₁]
    refine ⟨fun u hu ↦ ?_, rfl, rfl, rfl⟩
    · simp only [update_of_ne hu]
      exact Kernel.setProc_of_ne _ _ hu
  clear hs₂eq hs₁ hcopy
  have hout := copyuvm_outcome (L := L) (m := m) hp.space (fun f hf ↦ hvalid f (by simp [hf]))
    hp.sz_le hp.top_le hp.top_aligned (fun v h1 h2 ↦ by
      obtain ⟨k, j, -, -, -, hpte⟩ := hp.shared h1 h2
      rw [hpte]
      rfl)
  change CopyOutcome L (s.proc q).shmtop (s.proc q).sz (s.proc q).pgdir m
    (copyuvm L (s.proc q).sz (s.proc q).shmtop (s.proc q).sz (s.proc q).pgdir m) at hout
  simp only [hq₂]
  change ForkOutcome L q np s r m
    (copyuvm L (s.proc q).sz (s.proc q).shmtop (s.proc q).sz (s.proc q).pgdir s₂.freelist >>= _)
  rw [hfl₂]
  generalize copyuvm L (s.proc q).sz (s.proc q).shmtop (s.proc q).sz (s.proc q).pgdir m = c at hout
  cases hout with
  | panic hv hnone => exact .absent hv hnone
  | fail hlen hcount hvalid' =>
    rename_i fl
    have hr : L.Valid r := hvalid r (by simp)
    simp only [ok_bind, Kernel.setProc_self, hnp₂]
    change ForkOutcome L q np s r m (kfree L r fl >>= _)
    rw [kfree_of_valid hr, ok_bind]
    refine .fail hlen ⟨fun u hu ↦ ?_, hraised₂.count, hraised₂.pages, hraised₂.paddr⟩ ?_
      ⟨fun f ↦ ?_, List.forall_mem_cons.mpr ⟨hr, hvalid'⟩⟩
    · rw [Kernel.setProc_of_ne _ _ hu]
      exact (Kernel.setProc_of_ne _ _ hu).trans (hraised₂.other u hu)
    · rw [Kernel.setProc_self]
    · change (r :: fl).count f ≤ (r :: m).count f
      have := hcount f
      rw [List.count_cons, List.count_cons]
      omega
  | copied hcopied =>
    simp only [ok_bind, Kernel.setProc_self, hnp₂]
    refine .copied hcopied ⟨fun u hu ↦ ?_, hraised₂.count, hraised₂.pages, hraised₂.paddr⟩ ?_
    · rw [Kernel.setProc_of_ne _ _ hu]
      exact (Kernel.setProc_of_ne _ _ hu).trans (hraised₂.other u hu)
    · exact Kernel.setProc_self ..

/-- `fork` fails without a trace, or comes to one of the outcomes. -/
theorem fork_outcome {q : Slot} {s : Kernel} (hok : MemOk L s.mem)
    (hq : (s.proc q).state ≠ .unused) :
    (∃ t, fork L q s = .ok (t, -1) ∧ t.mem = s.mem ∧
      ((∀ r, (s.proc r).state ≠ .unused) ∨ s.freelist = [])) ∨
    ∃ np r m, s.freelist = r :: m ∧ (s.proc np).state = .unused ∧
      ForkOutcome L q np s r m (fork L q s) := by
  rw [fork]
  rcases allocproc_cases s with ⟨u, hu, hmem, hwhy⟩ | ⟨np, r, m, hfl, hnp, hu⟩
  · rw [hu]
    exact .inl ⟨u, rfl, hmem, hwhy⟩
  · rw [hu]
    exact .inr ⟨np, r, m, hfl, hnp, forkInto_outcome hok hq hfl hnp rfl⟩

end CS537.Shm
