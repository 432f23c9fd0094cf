import CS537.Shm.Boot

/-!
# Calls that go through

When memory and slots suffice the calls do what they are meant to: `sbrk` grows the process,
`shmgetat` makes the region, `fork` makes the child, and `exit` leaves a zombie. Each lemma gives
the state after the call as far as later calls depend on it.
-/

open Finset Function Wrapping Holding

namespace CS537.Shm

variable {L : Link} {s : Kernel} {q : Slot}

/-- Every private page is there. A request down to the size 0 leaves a process that is not full. -/
def Proc.Full (p : Proc) : Prop := ∀ v, v < pageUp p.sz → (p.pgdir.pte v).isSome

theorem step_dispatch (hq : (s.proc q).state = .runnable) :
    coreStep L (.dispatch q) s = some (dispatch q s) := if_pos hq

/-! ## `sbrk` -/

theorem step_sbrk {n : BitVec 32} (hok : MemOk L s.mem) (hq : s.Ready q) (hn : 0 < n.toInt)
    (hroom : (s.proc q).sz + n.toNat ≤ (s.proc q).shmtop)
    (hfree : pageUp ((s.proc q).sz + n.toNat) ≤ pageUp (s.proc q).sz + s.freelist.length) :
    ∃ t d, coreStep L (.sbrk q n) s = some t ∧
      t.proc q = { s.proc q with pgdir := d, sz := (s.proc q).sz + n.toNat } ∧
      (∀ r, r ≠ q → t.proc r = s.proc r) ∧
      t.freelist.length + pageUp ((s.proc q).sz + n.toNat)
        = s.freelist.length + pageUp (s.proc q).sz ∧
      t.shmemCount = s.shmemCount ∧ t.Ready q ∧ ((s.proc q).Full → (t.proc q).Full) := by
  have hp := hok.procs q _ (mem_proc hq.ne_unused)
  have htop : (s.proc q).shmtop ≤ usertop := hp.top_le
  have hmod : ((s.proc q).sz + n.toNat) % 2 ^ 32 = (s.proc q).sz + n.toNat := by
    simp only [usertop] at htop
    omega
  have hmono := pageUp_mono (Nat.le_add_right (s.proc q).sz n.toNat)
  have hne : n.toNat ≠ 0 := (toInt_pos hn).2
  have hout : ∃ g, allocuvm L (s.proc q).shmtop (s.proc q).sz ((s.proc q).sz + n.toNat)
        s.freelist (s.proc q).pgdir = .ok g ∧
      AllocOutcome (s.proc q).shmtop (s.proc q).sz ((s.proc q).sz + n.toNat) s.freelist
        (s.proc q).pgdir g :=
    allocuvm_outcome _ hp.space hok.free htop (fun v h1 h2 h3 ↦ hp.absent h3 h1 h2)
  obtain ⟨g, hg, hout⟩ := hout
  have hgrow : growproc L q n s = .ok ((s.setFreelist g.freelist).setProc q
      { s.proc q with pgdir := g.pgdir, sz := g.ret }, 0) := by
    -- room and memory suffice, so `allocuvm` has not refused
    have hret : g.ret ≠ 0 := by
      cases hout with
      | high h => omega
      | shrink _ h => omega
      | grown _ _ _ _ =>
        change (s.proc q).sz + n.toNat ≠ 0
        omega
      | full _ _ hlen => omega
    rw [growproc]
    simp only [if_pos hn, hmod]
    rw [hg, ok_bind, if_neg hret, Kernel.setProc_self]
    simp only [Kernel.setProc, update_idem]
    rfl
  have hstep : coreStep L (.sbrk q n) s = some _ := (if_pos hq).trans (by rw [hgrow]; rfl)
  cases hout with
  | high h => omega
  | shrink _ h => omega
  | full _ _ hlen => omega
  | grown _ _ hmap hlen =>
    refine ⟨_, _, hstep, Kernel.setProc_self .., fun r hr ↦ Kernel.setProc_of_ne _ _ hr, ?_, rfl,
      ?_, fun hfull v hv ↦ ?_⟩
    · have htaken := congrArg List.length hmap.taken
      rw [List.length_append] at htaken
      simp only [Kernel.setProc, Kernel.setFreelist]
      omega
    · rw [Kernel.Ready, Kernel.setProc_self]
      exact hq
    · rw [Kernel.setProc_self] at hv ⊢
      simp only at hv ⊢
      rw [hmap.pte]
      split
      · rw [List.getElem?_eq_getElem (by omega)]
        rfl
      · exact hfull v (by omega)

/-! ## `shmgetat` -/

/-- A new region of `n` pages. -/
theorem step_shmgetat (key num : BitVec 32) {k : Key} (hok : MemOk L s.mem) (hq : s.Ready q)
    (hkey : key.toNat = k) (hnum : 0 < num.toNat ∧ num.toNat ≤ shmemMaxPages)
    (hcount : s.shmemCount k = 0) (hvaddr : (s.proc q).shmemVaddr k = 0)
    (hroom : (s.proc q).sz + num.toNat * pgsize ≤ (s.proc q).shmtop)
    (hfree : num.toNat ≤ s.freelist.length) :
    ∃ t d, coreStep L (.shmgetat q key num) s = some t ∧
      t.proc q = { s.proc q with
        pgdir := d
        shmemVaddr := update (s.proc q).shmemVaddr k ((s.proc q).shmtop - num.toNat * pgsize)
        shmtop := (s.proc q).shmtop - num.toNat * pgsize } ∧
      (∀ r, r ≠ q → t.proc r = s.proc r) ∧
      t.freelist.length + num.toNat = s.freelist.length ∧
      t.shmemCount = update s.shmemCount k 1 ∧ t.shmemPages = update s.shmemPages k num.toNat ∧
      t.Ready q ∧ ((s.proc q).Full → (t.proc q).Full) := by
  have hp := hok.procs q _ (mem_proc hq.ne_unused)
  have halign : (s.proc q).shmtop % pgsize = 0 := hp.top_aligned
  have hint : ∀ x : BitVec 32, x.toNat < 2 ^ 31 → x.toInt = x.toNat := by
    intro x hx
    rw [BitVec.toInt_eq_toNat_cond, if_pos (by omega)]
  have hk := k.isLt
  simp only [shmemRegions] at hk
  have hmax := hnum.2
  simp only [shmemMaxPages] at hmax
  -- the key is valid and the counter 0, so the region is made
  have hcall : shmgetat q key num s = attach true q k num.toNat s := by
    have hlt : key.toNat < shmemRegions := by
      rw [hkey]
      exact k.isLt
    have hk' : (⟨key.toNat, hlt⟩ : Key) = k := Fin.ext hkey
    rw [shmgetat, hint key (by omega), hint num (by omega), if_neg (by omega), dif_pos hlt]
    simp only [hk', hvaddr, hcount, ne_eq, not_true_eq_false, if_false, if_true]
    rw [if_pos]
    simp only [shmemMaxPages]
    omega
  have hout := attach_outcome true (k := k) hok hq.ne_unused (fun _ ↦ hnum.2) (by simp)
    hnum.1
  rw [← hcall] at hout
  generalize hx : shmgetat q key num s = x at hout
  cases hout with
  | refused h => omega
  | full _ h => omega
  | @attached t d row _ _ hrow _ _ hpte htq hother hcount' hpages _ =>
    have hrises : s.Rises t := fun j ↦ by
      rw [hcount']
      by_cases hj : j = k
      · subst hj
        rw [update_self, hcount]
        decide
      · rw [update_of_ne hj]
    have hstep : coreStep L (.shmgetat q key num) s = some t :=
      Option.filter_eq_some_iff.mpr ⟨(if_pos hq).trans (by rw [hx]; rfl), decide_eq_true hrises⟩
    refine ⟨t, d, hstep, htq, hother, ?_, ?_, hpages, ?_, fun hfull v hv ↦ ?_⟩
    · have := (hrow.taken rfl).1
      omega
    · rw [hcount', hcount]
      rfl
    · rw [Kernel.Ready, htq]
      exact hq
    · rw [htq] at hv ⊢
      simp only at hv ⊢
      rw [hpte]
      split
      · rfl
      · exact hfull v hv

/-! ## `fork` -/

/-- Where the counters of the attached regions stand below the largest `int`. -/
def Kernel.CountsFit (s : Kernel) (q : Slot) : Prop :=
  ∀ k, (s.proc q).shmemVaddr k ≠ 0 → s.shmemCount k + 1 < 2 ^ 31

/-- Then no counter wraps. -/
theorem Raised.rises {np : Slot} (hok : MemOk L s.mem) (h : Raised q np s t)
    (hfits : s.CountsFit q) : s.Rises t := by
  intro k
  rw [h.count, raiseCount]
  split
  · rename_i hv
    have hlt := hfits k hv.2
    have hnonneg : (s.mem.attached k : ℤ) ≤ s.shmemCount k := hok.attached_le k
    rw [toInt32_of_range (by omega) hlt]
    omega
  · exact le_rfl

/-- With a free slot and memory for the stack, `fork` gets as far as `copyuvm`. -/
theorem fork_reaches (hok : MemOk L s.mem) (hq : s.Ready q)
    (hslot : ∃ r, (s.proc r).state = .unused)
    (hfree : s.freelist ≠ []) :
    ∃ np r m, s.freelist = r :: m ∧ (s.proc np).state = .unused ∧
      ForkOutcome L q np s r m (fork L q s) := by
  rcases fork_outcome hok hq.ne_unused with ⟨-, -, -, hall | hnil⟩ | h
  · obtain ⟨r, hr⟩ := hslot
    exact absurd hr (hall r)
  · exact absurd hnil hfree
  · exact h

theorem step_fork (hok : MemOk L s.mem) (hq : s.Ready q) (hfull : (s.proc q).Full)
    (hcounts : s.CountsFit q) (hslot : ∃ r, (s.proc r).state = .unused)
    (hfree : 14 + pageUp (s.proc q).sz ≤ s.freelist.length) :
    ∃ t np d r, coreStep L (.fork q) s = some t ∧ (s.proc np).state = .unused ∧ Raised q np s t ∧
      t.proc np = { (s.proc np).embryo s.nextpid r with
        shmemVaddr := (s.proc q).shmemVaddr
        shmtop := (s.proc q).shmtop
        pgdir := d
        sz := (s.proc q).sz
        parent := some q
        state := .runnable } ∧ (t.proc np).Full ∧
      t.freelist.length + (14 + pageUp (s.proc q).sz) = s.freelist.length := by
  obtain ⟨np, r, m, hfl, hnp, hout⟩ := fork_reaches hok hq hslot (by
    rintro hnil
    rw [hnil] at hfree
    simp at hfree)
  rw [hfl, List.length_cons] at hfree
  generalize hx : fork L q s = x at hout
  cases hout with
  | absent hv hnone =>
    have := hfull _ hv
    rw [hnone] at this
    cases this
  | fail hlen => omega
  | @copied t d hcopied hraised htnp =>
    have hstep : coreStep L (.fork q) s = some t := Option.filter_eq_some_iff.mpr
      ⟨(if_pos hq).trans (by rw [hx]; rfl), decide_eq_true (hraised.rises hok hcounts)⟩
    refine ⟨t, np, d, r, hstep, hnp, hraised, htnp, ?_, ?_⟩
    · rw [Proc.Full, htnp]
      exact hcopied.copied
    · have := hcopied.length
      rw [hfl, List.length_cons]
      omega

/-- With memory for the stack `fork` does not panic, whether the copy fits or not. -/
theorem step_fork_of_pos (hok : MemOk L s.mem) (hq : s.Ready q) (hfull : (s.proc q).Full)
    (hcounts : s.CountsFit q) (hslot : ∃ r, (s.proc r).state = .unused)
    (hpos : s.freelist ≠ []) : ∃ t, coreStep L (.fork q) s = some t := by
  obtain ⟨np, r, m, hfl, hnp, hout⟩ := fork_reaches hok hq hslot hpos
  generalize hx : fork L q s = x at hout
  cases hout with
  | absent hv hnone =>
    have := hfull _ hv
    rw [hnone] at this
    cases this
  | @fail t _ hraised _ _ =>
    exact ⟨t, Option.filter_eq_some_iff.mpr ⟨(if_pos hq).trans (by rw [hx]; rfl),
      decide_eq_true (hraised.rises hok hcounts)⟩⟩
  | @copied t _ _ hraised _ =>
    exact ⟨t, Option.filter_eq_some_iff.mpr ⟨(if_pos hq).trans (by rw [hx]; rfl),
      decide_eq_true (hraised.rises hok hcounts)⟩⟩

/-! ## `exit` and `wait` -/

/-- What `exit` does to the other processes: they do not cease to be ready, and the children of
`initproc` remain its children. -/
structure Kept (s t : Kernel) : Prop where
  ready : ∀ r, s.Ready r → t.Ready r
  parent : ∀ r, (s.proc r).parent = some initproc → (t.proc r).parent = some initproc

theorem Kept.refl (s : Kernel) : Kept s s := ⟨fun _ h ↦ h, fun _ h ↦ h⟩

theorem Kept.trans {s t u : Kernel} (h : Kept s t) (h' : Kept t u) : Kept s u :=
  ⟨fun r hr ↦ h'.ready r (h.ready r hr), fun r hr ↦ h'.parent r (h.parent r hr)⟩

theorem Kept.foldl {body : Kernel → Slot → Kernel} (h : ∀ s r, Kept s (body s r)) (l : List Slot)
    (s : Kernel) : Kept s (l.foldl body s) := by
  induction l generalizing s with
  | nil => exact .refl s
  | cons r l ih => exact (h s r).trans (ih (body s r))

/-- An update of one process that is not ready. -/
theorem Kept.setProc {s : Kernel} {q : Slot} {p : Proc}
    (hready : s.Ready q → p.state = .running ∧ p.waiting = false)
    (hparent : (s.proc q).parent = some initproc → p.parent = some initproc) :
    Kept s (s.setProc q p) := by
  refine ⟨fun r hr ↦ ?_, fun r hr ↦ ?_⟩
  · rw [Kernel.Ready]
    -- only the slot `q` has to be looked at
    by_cases hrq : r = q
    · subst hrq
      rw [Kernel.setProc_self]
      exact hready hr
    · rw [Kernel.setProc_of_ne _ _ hrq]
      exact hr
  · by_cases hrq : r = q
    · subst hrq
      rw [Kernel.setProc_self]
      exact hparent hr
    · rw [Kernel.setProc_of_ne _ _ hrq]
      exact hr

theorem wakeOne_kept (chan : Chan) (s : Kernel) (r : Slot) : Kept s (wakeOne chan s r) := by
  rw [wakeOne]
  split
  · rename_i h
    refine .setProc (fun hr ↦ ?_) (fun hr ↦ hr)
    rw [Kernel.Ready, h.1] at hr
    cases hr.1
  · exact .refl s

theorem wakeup1_kept (chan : Chan) (s : Kernel) : Kept s (wakeup1 chan s) :=
  .foldl (wakeOne_kept chan) slots s

theorem reparentOne_kept (q : Slot) (s : Kernel) (r : Slot) : Kept s (reparentOne q s r) := by
  rw [reparentOne]
  split
  · have hset : Kept s (s.setProc r { s.proc r with parent := some initproc }) :=
      .setProc (fun h ↦ h) (fun _ ↦ rfl)
    simp only
    split
    · exact hset.trans (wakeup1_kept _ _)
    · exact hset
  · exact .refl s

/-- A child of `initproc` that exits becomes a zombie. -/
theorem step_exit (hq : s.Ready q) (hinit : q ≠ initproc)
    (hparent : (s.proc q).parent = some initproc) :
    ∃ t, coreStep L (.exit q) s = some t ∧ (t.proc q).state = .zombie ∧
      (t.proc q).parent = some initproc ∧ (∀ r, r ≠ q → s.Ready r → t.Ready r) ∧
      t.mem = s.mem := by
  have hwake : Kept s (wakeParent q s) := by
    rw [wakeParent, hparent]
    exact wakeup1_kept _ s
  have hkept := hwake.trans (.foldl (reparentOne_kept q) slots _)
  have hexit : exit q s = .ok _ := if_neg hinit
  refine ⟨_, (if_pos hq).trans (by rw [hexit]; rfl), ?_, ?_, fun r hr h ↦ ?_,
    exit_mem hq.ne_unused hexit⟩
  · rw [Kernel.setProc_self]
  · rw [Kernel.setProc_self]
    exact hkept.parent q hparent
  · rw [Kernel.Ready, Kernel.setProc_of_ne _ _ hr]
    exact hkept.ready r h

/-- A running process with a zombie child reaps one. -/
theorem step_wait {z : Slot} (hok : MemOk L s.mem) (hq : (s.proc q).state = .running)
    (hz : zombieChild q s = some z) : ∃ t, coreStep L (.wait q) s = some t := by
  obtain ⟨-, -, u, hu, -⟩ :=
    reap_ok hok (by rw [hq]; simp) (by rw [zombieChild_state hz]; simp)
  exact ⟨_, (if_pos hq).trans (by rw [wait_of_reap hz hu]; rfl)⟩

/-! ## The first process runs -/

theorem Reach.step {a : Act} {s t : Kernel} (hs : Reach L s) (h : coreStep L a s = some t) :
    Reach L t := Transition.ReachableBy.snoc hs h trivial

/-- No `wait` and no `exec`; and where `fork` and `shmgetat` are called all counters stand below the
largest `int`. -/
def Plain (m : Transition.Move Kernel Act) : Prop :=
  match m.act with
  | .wait _ | .exec _ _ _ => False
  | .fork _ | .shmgetat _ _ _ => ∀ k, m.src.shmemCount k + 1 < 2 ^ 31
  | _ => True

/-- Reachability by plain moves. -/
def Unreaped (L : Link) (s : Kernel) : Prop :=
  Transition.ReachableBy (coreStep L) (Booted L) Plain s

/-- Counters at 0 are far from the largest `int`. -/
theorem count_lt_of_zero {s : Kernel} (h : s.shmemCount = fun _ ↦ 0) (k : Key) :
    s.shmemCount k + 1 < 2 ^ 31 := by
  rw [h]
  exact show (0 : ℤ) + 1 < 2 ^ 31 by decide

theorem Unreaped.step {a : Act} {s t : Kernel} (hs : Unreaped L s) (h : coreStep L a s = some t)
    (ha : Plain ⟨s, a, t⟩) : Unreaped L t := Transition.ReachableBy.snoc hs h ha

theorem Unreaped.reach {s : Kernel} (hs : Unreaped L s) : Reach L s :=
  Transition.ReachableBy.reachable hs

/-- A machine with one processor and at least 29 frames gets as far as running the first process,
alone and with one page. -/
theorem exists_running_unreaped (h : 29 ≤ L.frames.length) :
    ∃ s, Unreaped L s ∧ s.Ready initproc ∧ s.freelist.length + 29 = L.frames.length ∧
      (s.proc initproc).sz = pgsize ∧ (s.proc initproc).shmtop = usertop ∧
      ((s.proc initproc).shmemVaddr = fun _ ↦ 0) ∧
      (∀ q, q ≠ initproc → (s.proc q).state = .unused) ∧ (s.shmemCount = fun _ ↦ 0) ∧
      (s.proc initproc).Full := by
  obtain ⟨m, hlen, hboot⟩ := boot_one (L := L) (by omega)
  rcases userinit_outcome L m with ⟨hlt, -⟩ | ⟨r, m₁, d, r₀, m₂, rfl, hfresh, hok⟩
  · omega
  have hlen₁ := hfresh.length
  rw [List.length_cons] at hlen hlen₁
  have htab : (d.tab (0 / 1024)).isSome := (hfresh.tab _).mpr (.inl (by decide))
  have hbooted : Booted L (firstState m₂ (d.setPte 0 (some ⟨r₀, true, true⟩)) r) :=
    ⟨1, hboot.trans hok⟩
  have hproc := firstState_init m₂ (d.setPte 0 (some ⟨r₀, true, true⟩)) r
  have hstep := step_dispatch (L := L) (q := initproc) (by rw [hproc])
  have hself : (dispatch initproc (firstState m₂ (d.setPte 0 (some ⟨r₀, true, true⟩)) r)).proc
      initproc = ⟨pgsize, d.setPte 0 (some ⟨r₀, true, true⟩), r, .running, 1, none, none, false,
        false, fun _ ↦ 0, usertop⟩ := by
    rw [dispatch, Kernel.setProc_self, hproc]
  refine ⟨_, Unreaped.step (Transition.ReachableBy.refl hbooted) hstep trivial, ?_, ?_,
    by rw [hself],
    by rw [hself], by rw [hself], fun q hq ↦ ?_, rfl, ?_⟩
  · rw [Kernel.Ready, hself]
    exact ⟨rfl, rfl⟩
  · change m₂.length + 29 = _
    omega
  · rw [dispatch, Kernel.setProc_of_ne _ _ hq]
    exact firstState_other _ _ _ hq
  · rw [hself]
    intro v hv
    have hone : pageUp pgsize = 1 := by decide
    simp only [hone] at hv
    obtain rfl : v = 0 := by omega
    rw [PageDir.setPte_pte _ htab, update_self]
    rfl

theorem exists_running (h : 29 ≤ L.frames.length) :
    ∃ s, Reach L s ∧ s.Ready initproc ∧ s.freelist.length + 29 = L.frames.length ∧
      (s.proc initproc).sz = pgsize ∧ (s.proc initproc).shmtop = usertop ∧
      ((s.proc initproc).shmemVaddr = fun _ ↦ 0) ∧
      (∀ q, q ≠ initproc → (s.proc q).state = .unused) ∧ (s.shmemCount = fun _ ↦ 0) ∧
      (s.proc initproc).Full := by
  obtain ⟨s, hs, hrest⟩ := exists_running_unreaped h
  exact ⟨s, hs.reach, hrest⟩

/-- The addresses of a kernel image of 64 KB. -/
def kernelImage : Link where
  data := 0x108000
  kend := 0x110000
  aligned := by decide
  text_lt := by decide
  data_le := by decide
  kend_lt := by decide

theorem length_frames_kernelImage : kernelImage.frames.length = 3824 := by
  rw [Link.length_frames]
  decide

end CS537.Shm
