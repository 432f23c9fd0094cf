import CS537.Shm.Bounds

/-!
# The reference counters of the shared regions

`fork` raises the counters of the regions of its caller before it copies the address space, and
does not lower them when the copy fails. `Mem.drift` is how far a counter is ahead of the processes
that have the region attached: no other call changes it, so it stays for good.
-/

open Finset Function Holding Tally Transition

namespace CS537.Shm

variable {L : Link}

/-- The slots that are not UNUSED and have the region attached. -/
def Kernel.holders (s : Kernel) (k : Key) : Finset Slot :=
  {q | (s.proc q).state ≠ .unused ∧ (s.proc q).shmemVaddr k ≠ 0}

/-- Every counter is the number of slots that hold the region. -/
def Kernel.CountsRight (s : Kernel) : Prop := ∀ k, s.shmemCount k = (s.holders k).card

/-- There is a free slot and memory for a stack, but not for the copy: the directory with its 12
page tables, and the private pages. -/
def Kernel.Starves (s : Kernel) (q : Slot) : Prop :=
  (∃ r, (s.proc r).state = .unused) ∧ 0 < s.freelist.length ∧
    s.freelist.length < 14 + pageUp (s.proc q).sz

/-- A `fork` that starves, by a process that has a region attached. -/
def StarvedFork (m : Move Kernel Act) : Prop :=
  ∃ q, m.act = .fork q ∧ m.src.Starves q ∧ ∃ k, (m.src.proc q).shmemVaddr k ≠ 0

/-! ## Drift -/

def Mem.drift (m : Mem) (k : Key) : ℤ := m.count k - m.attached k

/-- A slot weighs 1 when it holds the region. -/
theorem weight_mem (p : Proc) (k : Key) :
    weight k p.mem = if p.state ≠ .unused ∧ p.shmemVaddr k ≠ 0 then 1 else 0 := by
  rw [Proc.mem]
  by_cases hp : p.state = .unused
  · rw [if_pos hp, if_neg fun h ↦ h.1 hp]
    rfl
  · rw [if_neg hp]
    change attachedTo p.shmemVaddr k = _
    rw [attachedTo]
    exact if_congr (by simp [hp]) rfl rfl

theorem attached_eq_card (s : Kernel) (k : Key) : s.mem.attached k = (s.holders k).card := by
  have hcard := card_filter_eq_tally
    (fun p : Proc ↦ p.state ≠ .unused ∧ p.shmemVaddr k ≠ 0) s.proc
  have hweight : tally (weight k) s.mem.proc
      = tally (fun p : Proc ↦ if p.state ≠ .unused ∧ p.shmemVaddr k ≠ 0 then 1 else 0) s.proc :=
    tally_congr fun q ↦ weight_mem (s.proc q) k
  have hattached : s.mem.attached k = tally (weight k) s.mem.proc := rfl
  rw [hattached, hweight, ← hcard]
  rfl

theorem countsRight_iff {s : Kernel} : s.CountsRight ↔ ∀ k, s.mem.drift k = 0 := by
  refine forall_congr' fun k ↦ ?_
  rw [Mem.drift, attached_eq_card, sub_eq_zero]
  rfl

theorem MemOk.drift_nonneg {m : Mem} (h : MemOk L m) (k : Key) : 0 ≤ m.drift k :=
  sub_nonneg.mpr (h.attached_le k)

/-- The drift after the weight of one slot and the counter have changed. -/
theorem drift_update {m m' : Mem} {q : Slot} {o : Option ProcMem}
    (hproc : m'.proc = update m.proc q o) {k : Key} {x : ℤ} (hcount : m'.count k = m.count k + x) :
    m'.drift k = m.drift k + x + weight k (m.proc q) - weight k o := by
  have h1 := attached_update m q o k
  have h2 : m'.attached k = tally (weight k) (update m.proc q o) := by
    rw [← hproc]
    rfl
  rw [Mem.drift, Mem.drift]
  omega

/-- The drift after counter and attachments have changed alike. -/
theorem drift_eq {m m' : Mem} {q : Slot} {o : Option ProcMem}
    (hproc : m'.proc = update m.proc q o) {k : Key}
    (hcount : m'.count k = m.count k + (weight k o - weight k (m.proc q))) :
    m'.drift k = m.drift k := by
  have := drift_update hproc hcount
  omega

/-- Only a `fork` that starves changes the drift. -/
theorem Effect.drift {c : Option Slot} {a : Act} {m m' : Mem} (he : Effect L c a m m')
    (hok : MemOk L m) (k : Key) :
    m'.drift k = m.drift k ∨ ∃ q np p r m₁, a = .fork q ∧ m.proc q = some p ∧ m.proc np = none ∧
      m.freelist = r :: m₁ ∧ m₁.length < 13 + pageUp p.sz ∧ p.shmemVaddr k ≠ 0 := by
  -- a process that keeps its regions counts as before
  have hsame : ∀ {p p' : ProcMem}, p'.shmemVaddr = p.shmemVaddr →
      (m.count k : ℤ) = m.count k + ((weight k (some p') : ℕ) - (weight k (some p) : ℕ)) := by
    intro p p' hv
    change (m.count k : ℤ) =
      m.count k + ((attachedTo p'.shmemVaddr k : ℕ) - (attachedTo p.shmemVaddr k : ℕ))
    rw [hv]
    omega
  cases he with
  | idle => exact .inl rfl
  | @forkFail q np _ p r m₁ _ hq hnp hfl hlen _ =>
    -- the counters stay raised for a child that is not there
    by_cases hk : p.shmemVaddr k = 0
    · refine .inl ?_
      change m.count k + ((attachedTo p.shmemVaddr k : ℕ) : ℤ) - m.attached k =
        m.count k - m.attached k
      rw [attachedTo, if_neg fun h ↦ h hk]
      omega
    · exact .inr ⟨q, np, p, r, m₁, rfl, hq, hnp, hfl, hlen, hk⟩
  | @forked q np _ p _ _ _ _ hq hnp _ _ =>
    refine .inl (drift_eq rfl ?_)
    rw [hnp]
    change m.count k + (attachedTo p.shmemVaddr k : ℤ) =
      m.count k + ((attachedTo p.shmemVaddr k : ℤ) - 0)
    omega
  | execFail _ => exact .inl rfl
  | @execed q _ _ _ p sz fl l l' d hq _ _ _ =>
    refine .inl (drift_eq (o := some ⟨sz, d, p.kstack, fun _ ↦ 0, usertop⟩) rfl ?_)
    rw [hq]
    have hnew : weight k (some ⟨sz, d, p.kstack, fun _ ↦ 0, usertop⟩) = 0 := by
      simp [weight, attachedTo]
    rw [hnew]
    change m.count k - (attachedTo p.shmemVaddr k : ℤ)
      = m.count k + ((0 : ℕ) - (attachedTo p.shmemVaddr k : ℤ))
    omega
  | @reaped q z _ p ch _ _ _ hq hz _ _ =>
    refine .inl (drift_eq rfl ?_)
    rw [hz]
    change m.count k - (attachedTo ch.shmemVaddr k : ℤ)
      = m.count k + ((0 : ℕ) - (attachedTo ch.shmemVaddr k : ℤ))
    omega
  | grown hq | growFull hq | shrunk hq =>
    refine .inl (drift_eq rfl ?_)
    rw [hq]
    exact hsame rfl
  | @attached q _ _ _ p _ j n _ _ _ hq hj _ _ _ hroom _ _ _ _ =>
    refine .inl (drift_eq rfl ?_)
    rw [hq]
    change update m.count j (m.count j + 1) k = m.count k
      + ((attachedTo (update p.shmemVaddr j (p.shmtop - n * pgsize)) k : ℤ)
        - attachedTo p.shmemVaddr k)
    rw [attachedTo, attachedTo]
    -- one more reference and one more process attached
    by_cases hkj : k = j
    · subst hkj
      have hpos := (hok.procs q p hq).sz_pos
      rw [update_self, update_self, if_pos (by omega), if_neg fun h ↦ h hj]
      omega
    · rw [update_of_ne hkj, update_of_ne hkj]
      omega

/-! ## Runs -/

/-- A `fork` that starves raises the counters of the regions of its caller, and nobody attaches
them. -/
theorem fork_starved {q : Slot} {s t : Kernel} {x : ℤ} (hok : MemOk L s.mem) (hq : s.Ready q)
    (hs : s.Starves q) (hrises : s.Rises t) (h : fork L q s = .ok (t, x)) (k : Key) :
    t.mem.drift k = s.mem.drift k + (attachedTo (s.proc q).shmemVaddr k : ℤ) := by
  obtain ⟨hslot, hpos, hlen⟩ := hs
  obtain ⟨np, r, m, hfl, hnp, hout⟩ := fork_reaches hok hq hslot (List.ne_nil_of_length_pos hpos)
  rw [hfl, List.length_cons] at hlen
  rw [h] at hout
  cases hout with
  | fail _ hraised hunused _ =>
    have hmem : t.mem.proc = s.mem.proc := by
      rw [mem_of_proc_unused hunused hraised.other]
      exact update_eq_self_iff.mpr (mem_of_unused hnp).symm
    have hattached : t.mem.attached k = s.mem.attached k := by
      rw [Mem.attached, hmem, Mem.attached]
    have hcount : t.mem.count k = s.mem.count k + attachedTo (s.proc q).shmemVaddr k :=
      congrFun (hraised.count_eq hok hrises).1 k
    rw [Mem.drift, Mem.drift, hattached, hcount]
    omega
  | copied hcopied _ _ =>
    have := hcopied.length
    omega

/-- A starved `fork` moves a counter ahead. -/
theorem drift_lt {a : Act} {s t : Kernel} (hok : MemOk L s.mem) (h : coreStep L a s = some t)
    (hm : StarvedFork ⟨s, a, t⟩) : ∃ k, s.mem.drift k < t.mem.drift k := by
  obtain ⟨q, rfl, hs, k, hk⟩ := hm
  obtain ⟨h, hrises⟩ := Option.filter_eq_some_iff.mp h
  obtain ⟨hq, h⟩ := Option.ite_none_right_eq_some.mp h
  obtain ⟨x, h⟩ := map_fst_eq_ok h
  refine ⟨k, ?_⟩
  rw [fork_starved hok hq hs (of_decide_eq_true hrises) h k, attachedTo_of_ne hk]
  omega

/-- The other steps leave the drift alone. -/
theorem drift_eq_of_not {a : Act} {s t : Kernel} (hok : MemOk L s.mem) (h : coreStep L a s = some t)
    (hm : ¬StarvedFork ⟨s, a, t⟩) (k : Key) : t.mem.drift k = s.mem.drift k := by
  rcases (step_effect hok h).drift hok k with heq | ⟨q, np, p, r, m, rfl, hq, hnp, hfl, hlen, hk⟩
  · exact heq
  · refine absurd ⟨q, rfl, ⟨⟨np, ?_⟩, ?_, ?_⟩, k, ?_⟩ hm
    · by_contra hne
      exact proc_mem_ne_none.mpr hne hnp
    · change 0 < s.mem.freelist.length
      rw [hfl]
      exact Nat.succ_pos _
    · obtain ⟨-, hview⟩ := view_of_mem hq
      change s.mem.freelist.length < _
      rw [hfl, List.length_cons, show (s.proc q).sz = p.sz from congrArg ProcMem.sz hview]
      omega
    · obtain ⟨-, hview⟩ := view_of_mem hq
      rw [show (s.proc q).shmemVaddr = p.shmemVaddr from congrArg ProcMem.shmemVaddr hview]
      exact hk

theorem Booted.drift {s : Kernel} (h : Booted L s) (k : Key) : s.mem.drift k = 0 := by
  obtain ⟨r, m₁, d, r₀, m₂, -, -, rfl⟩ := h.firstState
  rw [Mem.drift, firstState_attached, firstState_mem]
  rfl

/-- Along a run the drift is never negative, and it is 0 as long as no `fork` starves. -/
theorem run_drift {s₀ s : Kernel} {tr : List (Move Kernel Act)} (h₀ : Booted L s₀)
    (hrun : Run (coreStep L) s₀ tr s) :
    MemOk L s.mem ∧ ((∀ k, s.mem.drift k = 0) ↔ ∀ m ∈ tr, ¬StarvedFork m) := by
  induction hrun with
  | nil => exact ⟨h₀.memOk, by simp, fun _ ↦ h₀.drift⟩
  | @snoc s t tr a hrun hstep ih =>
    obtain ⟨hok, hiff⟩ := ih
    refine ⟨(step_effect hok hstep).memOk hok, ?_⟩
    rw [List.forall_mem_append, ← hiff, List.forall_mem_singleton]
    -- a starved `fork` moves one counter ahead, and none ever falls behind to make up for it
    by_cases hm : StarvedFork ⟨s, a, t⟩
    · constructor
      · intro h
        obtain ⟨k, hk⟩ := drift_lt hok hstep hm
        have := hok.drift_nonneg k
        have := h k
        omega
      · rintro ⟨-, h⟩
        exact absurd hm h
    · simp only [drift_eq_of_not hok hstep hm]
      constructor
      · intro h
        exact ⟨h, hm⟩
      · rintro ⟨h, -⟩
        exact h

/-! ## Running out of memory -/

/-- A process that may `fork` again and again: it is ready, none of its private pages is missing,
and the counters of its regions have room for `n` more children. -/
structure Forker (L : Link) (s : Kernel) (q : Slot) (n : ℕ) : Prop where
  unreaped : Unreaped L s
  ready : s.Ready q
  full : (s.proc q).Full
  holds : ∃ k, (s.proc q).shmemVaddr k ≠ 0
  fits : ∀ k, s.shmemCount k + n < 2 ^ 31 - 1
  slots : n < (univ.filter fun r ↦ (s.proc r).state = .unused).card

theorem Forker.slot {s : Kernel} {q : Slot} {n : ℕ} (h : Forker L s q n) :
    ∃ r, (s.proc r).state = .unused := by
  obtain ⟨r, hr⟩ := card_pos.mp (Nat.zero_lt_of_lt h.slots)
  exact ⟨r, (mem_filter.mp hr).2⟩

theorem Forker.countsFit {s : Kernel} {q : Slot} {n : ℕ} (h : Forker L s q n) : s.CountsFit q := by
  intro k _
  have := h.fits k
  omega

theorem Forker.reach {s : Kernel} {q : Slot} {n : ℕ} (h : Forker L s q n) : Reach L s :=
  h.unreaped.reach

theorem Forker.memOk {s : Kernel} {q : Slot} {n : ℕ} (h : Forker L s q n) : MemOk L s.mem :=
  h.reach.memOk

/-- A successful `fork` leaves a process that may `fork` again, one time less. -/
theorem Forker.next {s : Kernel} {q : Slot} {n : ℕ} (h : Forker L s q (n + 1))
    (hfree : 14 + pageUp (s.proc q).sz ≤ s.freelist.length) :
    ∃ t, Forker L t q n ∧ t.proc q = s.proc q ∧
      t.freelist.length + (14 + pageUp (s.proc q).sz) = s.freelist.length ∧
      ∀ k, (s.proc q).shmemVaddr k = 0 → t.shmemCount k = s.shmemCount k := by
  obtain ⟨t, np, d, r, hstep, hnp, hraised, htnp, -, hlen⟩ :=
    step_fork h.memOk h.ready h.full h.countsFit h.slot hfree
  have hne : q ≠ np := by
    rintro rfl
    exact h.ready.ne_unused hnp
  have htq := hraised.other q hne
  have hlt : ∀ k, s.shmemCount k + 1 < 2 ^ 31 := fun k ↦ by
    have := h.fits k
    omega
  obtain ⟨hcount, -⟩ := hraised.count_eq h.memOk (hraised.rises h.memOk h.countsFit)
  refine ⟨t, ⟨h.unreaped.step hstep hlt, ?_, htq ▸ h.full, htq ▸ h.holds, fun k ↦ ?_, ?_⟩, htq, hlen,
    fun k hk ↦ ?_⟩
  · rw [Kernel.Ready, htq]
    exact h.ready
  · have h1 := h.fits k
    have h2 := attachedTo_le (s.proc q).shmemVaddr k
    have h3 := congrFun hcount k
    push_cast at h1
    omega
  · -- one slot less is free
    have hsub : (univ.filter fun r ↦ (s.proc r).state = .unused).erase np
        ⊆ univ.filter fun r ↦ (t.proc r).state = .unused := by
      intro u hu
      rw [mem_erase, mem_filter] at hu
      rw [mem_filter, hraised.other u hu.1]
      exact hu.2
    have hcard := card_le_card hsub
    rw [card_erase_of_mem (mem_filter.mpr ⟨mem_univ np, hnp⟩)] at hcard
    have := h.slots
    omega
  · rw [congrFun hcount k, attachedTo, if_neg (not_not.mpr hk)]
    simp

/-- Whoever may `fork` often enough can use up the memory but for a remainder. -/
theorem Forker.exhausts {s : Kernel} {q : Slot} {n r : ℕ} (h : Forker L s q n)
    (hlen : s.freelist.length = n * (14 + pageUp (s.proc q).sz) + r) :
    ∃ t, Forker L t q 0 ∧ t.proc q = s.proc q ∧ t.freelist.length = r ∧
      ∀ k, (s.proc q).shmemVaddr k = 0 → t.shmemCount k = s.shmemCount k := by
  -- on the number of children that memory allows
  induction n generalizing s with
  | zero => exact ⟨s, h, rfl, by omega, fun _ _ ↦ rfl⟩
  | succ n ih =>
    rw [Nat.succ_mul] at hlen
    obtain ⟨t, ht, htq, htlen, htcount⟩ := h.next (by omega)
    obtain ⟨u, hu, huq, hulen, hucount⟩ := ih ht (by rw [htq]; omega)
    refine ⟨u, hu, huq.trans htq, hulen, fun k hk ↦ ?_⟩
    rw [hucount k (by rw [htq, hk]), htcount k hk]

/-- Whoever may `fork` often enough gets to the point where a `fork` starves. -/
theorem Forker.starves {s : Kernel} {q : Slot} {n r : ℕ} (h : Forker L s q n) (hr : 0 < r)
    (hr' : r < 14 + pageUp (s.proc q).sz)
    (hlen : s.freelist.length = n * (14 + pageUp (s.proc q).sz) + r) :
    ∃ t, Forker L t q 0 ∧ t.Starves q := by
  obtain ⟨t, ht, htq, htlen, -⟩ := h.exhausts hlen
  exact ⟨t, ht, ht.slot, by omega, by rw [htq]; omega⟩

/-- The first process, grown by `n` bytes and with a region of one page. -/
theorem exists_forker {n : BitVec 32} {m : ℕ} (hn : 0 < n.toInt)
    (hroom : 2 * pgsize + n.toNat ≤ usertop) (hm : m < 63) :
    ∃ s, Forker kernelImage s initproc m ∧ (s.proc initproc).sz = pgsize + n.toNat ∧
      (s.proc initproc).shmtop = usertop - pgsize ∧
      s.freelist.length + pageUp (pgsize + n.toNat) = 3795 ∧
      ∀ j : Key, (j : ℕ) ≠ 0 → (s.proc initproc).shmemVaddr j = 0 ∧ s.shmemCount j = 0 := by
  obtain ⟨s₁, hs₁, hready₁, hlen₁, hsz₁, htop₁, hvaddr₁, hother₁, hcount₁, hfull₁⟩ :=
    exists_running_unreaped (L := kernelImage) (by rw [length_frames_kernelImage]; decide)
  rw [length_frames_kernelImage] at hlen₁
  have hone : pageUp pgsize = 1 := by decide
  have hle : pageUp (pgsize + n.toNat) ≤ 160 := pageUp_le (by omega)
  obtain ⟨s₂, d₂, hstep₂, hproc₂, hother₂, hlen₂, hcount₂, hready₂, hfull₂⟩ :=
    step_sbrk (n := n) hs₁.reach.memOk hready₁ hn (by rw [hsz₁, htop₁]; omega)
      (by rw [hsz₁, hone]; omega)
  rw [hsz₁] at hproc₂ hlen₂
  rw [hone] at hlen₂
  have hs₂ := hs₁.step hstep₂ trivial
  have hsz₂ : (s₂.proc initproc).sz = pgsize + n.toNat := by rw [hproc₂]
  have htop₂ : (s₂.proc initproc).shmtop = usertop := by rw [hproc₂, htop₁]
  let k : Key := ⟨0, by decide⟩
  have hnum : (1#32).toNat = 1 := rfl
  obtain ⟨s₃, d₃, hstep₃, hproc₃, hother₃, hlen₃, hcount₃, -, hready₃, hfull₃⟩ :=
    step_shmgetat 0#32 1#32 (k := k) hs₂.reach.memOk hready₂ rfl (by decide)
      (by rw [hcount₂, hcount₁]) (by rw [hproc₂, hvaddr₁])
      (by rw [hsz₂, htop₂, hnum]; omega) (by change 1 ≤ _; omega)
  rw [hnum] at hlen₃
  have hsz₃ : (s₃.proc initproc).sz = pgsize + n.toNat := by rw [hproc₃, hsz₂]
  have hlt₂ := count_lt_of_zero (hcount₂.trans hcount₁)
  refine ⟨s₃, ⟨hs₂.step hstep₃ hlt₂, hready₃, hfull₃ (hfull₂ hfull₁), ⟨k, ?_⟩, fun j ↦ ?_, ?_⟩, hsz₃,
    by rw [hproc₃, htop₂, hnum, one_mul], by omega, fun j hj ↦ ?_⟩
  · rw [hproc₃, htop₂]
    simp only [update_self]
    decide
  · rw [hcount₃, hcount₂, hcount₁]
    by_cases hj : j = k
    · subst hj
      rw [update_self]
      omega
    · rw [update_of_ne hj]
      omega
  · have hsub : univ.erase initproc ⊆ univ.filter fun r ↦ (s₃.proc r).state = .unused := by
      intro u hu
      have hne := ne_of_mem_erase hu
      rw [mem_filter, hother₃ u hne, hother₂ u hne]
      exact ⟨mem_univ u, hother₁ u hne⟩
    refine lt_of_lt_of_le ?_ (card_le_card hsub)
    rw [card_erase_of_mem (mem_univ _), card_univ, Fintype.card_fin]
    exact hm
  · have hjk : j ≠ k := fun h ↦ hj (congrArg Fin.val h)
    rw [hproc₃, hcount₃, hcount₂, hcount₁]
    simp only
    rw [update_of_ne hjk, update_of_ne hjk, hproc₂, hvaddr₁]
    exact ⟨rfl, rfl⟩

/-- Frames for 21 children of a process with 159 pages, and 3 more. -/
theorem exists_starving : ∃ s, Forker kernelImage s initproc 0 ∧ s.Starves initproc := by
  have hpages : pageUp (pgsize + (0x9E000#32).toNat) = 159 := by decide
  obtain ⟨s, hforker, hsz, -, hlen, -⟩ :=
    exists_forker (n := 0x9E000#32) (m := 21) (by decide) (by decide) (by decide)
  refine hforker.starves (r := 3) (by decide) ?_ ?_
  · rw [hsz, hpages]
    decide
  · rw [hsz]
    omega

/-- The first process attaches a region, grows and forks until memory is short. -/
theorem exists_starved_fork : ∃ s t, Unreaped kernelImage s ∧
    (∀ k, s.shmemCount k + 1 < 2 ^ 31) ∧
    coreStep kernelImage (.fork initproc) s = some t ∧ StarvedFork ⟨s, .fork initproc, t⟩ := by
  obtain ⟨s, hforker, hstarves⟩ := exists_starving
  obtain ⟨t, hstep⟩ := step_fork_of_pos hforker.memOk hforker.ready hforker.full
    hforker.countsFit hforker.slot (List.ne_nil_of_length_pos hstarves.2.1)
  refine ⟨s, t, hforker.unreaped, fun k ↦ ?_, hstep, initproc, rfl, hstarves, hforker.holds⟩
  have := hforker.fits k
  omega

/-- The counter of the region is then ahead of its holders. -/
theorem not_counts_right : ∃ s, Reachable (step kernelImage) (Booted kernelImage) s ∧
    ¬s.CountsRight := by
  obtain ⟨s, t, hs, hlt, hstep, hstarved⟩ := exists_starved_fork
  refine ⟨t, (hs.step hstep hlt).sound.reachable, fun hright ↦ ?_⟩
  obtain ⟨k, hk⟩ := drift_lt hs.reach.memOk hstep hstarved
  have h1 := hs.reach.memOk.drift_nonneg k
  have h2 := countsRight_iff.mp hright k
  omega

/-! ## When the counters are right -/

/-- **The counters are right exactly as long as no `fork` starves.** After any run of careful moves
from boot, every counter is the number of slots that hold its region if and only if no `fork` by a
process with an attached region found a slot and a frame for the stack, but not the frames for the
copy. -/
theorem Booted.counts_right_iff {s₀ s : Kernel} {tr : List (Move Kernel Act)} (h₀ : Booted L s₀)
    (hrun : Run (step L) s₀ tr s) (hcareful : ∀ m ∈ tr, Careful m) :
    s.CountsRight ↔ ∀ m ∈ tr, ¬StarvedFork m :=
  countsRight_iff.trans (run_drift h₀ (h₀.run_core hrun fun m hm ↦ (hcareful m hm).1)).2

/-- The run of `exists_starved_fork`. -/
theorem counts_right_iff_starved : ∃ s₀ s tr, Booted kernelImage s₀ ∧
    Run (step kernelImage) s₀ tr s ∧ (∀ m ∈ tr, Careful m) ∧ (∃ m ∈ tr, StarvedFork m) ∧
      ¬s.CountsRight := by
  obtain ⟨s, t, hs, hlt, hstep, hstarved⟩ := exists_starved_fork
  obtain ⟨s₀, tr, h₀, hrun, hplain⟩ := hs
  have hcareful : ∀ m ∈ tr ++ [⟨s, .fork initproc, t⟩], Careful m := by
    rw [List.forall_mem_append, List.forall_mem_singleton]
    exact ⟨fun m hm ↦ (hplain m hm).careful, Plain.careful hlt⟩
  have hrun' := (run_of_plain hrun hplain).snoc
    (step_of_core (by rintro _ _ _ h; cases h) hstep)
  refine ⟨s₀, t, _, h₀, hrun', hcareful, ⟨_, by simp, hstarved⟩, fun hright ↦ ?_⟩
  exact (Booted.counts_right_iff h₀ hrun' hcareful).mp hright _ (by simp) hstarved

end CS537.Shm
