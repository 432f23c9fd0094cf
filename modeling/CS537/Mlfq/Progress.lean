import CS537.Mlfq.Loop

/-!
# Progress of the layer loop

The layer loop looks for a RUNNABLE process at the highest level, which it computes from counters
that count RUNNING processes too. It ends if there is such a process, or none RUNNABLE at all. If
there are RUNNABLE processes and all processes of the highest level are RUNNING on other CPUs, it
jumps back to the highest level forever.
-/

namespace CS537.Mlfq

open Function Transition

variable {ncpu : ℕ} {s t : Kernel ncpu} {c : Fin ncpu}

/-! ## The rank of the loop variables -/

/-- Some process at the slot `p` or after it is RUNNABLE at level `l`. -/
def WaitingFrom (proc : Slot → Proc) (l : ℤ) (p : ℕ) : Prop :=
  ∃ q : Slot, p ≤ q ∧ (proc q).state = .runnable ∧ (proc q).level = l

instance (proc : Slot → Proc) (l : ℤ) (p : ℕ) : Decidable (WaitingFrom proc l p) :=
  inferInstanceAs (Decidable (∃ _, _))

/-- There are RUNNABLE processes, and none at the highest level. -/
def Stuck (s : Kernel ncpu) : Prop :=
  (∃ q, (s.proc q).state = .runnable) ∧
    ∀ q, (s.proc q).state = .runnable → (s.proc q).level ≠ highestlevel s.ninlevel

instance (s : Kernel ncpu) : Decidable (Stuck s) := inferInstanceAs (Decidable (_ ∧ _))

theorem waitingFrom_of_not_stuck (h : ¬Stuck s) {q : Slot} (hq : (s.proc q).state = .runnable) :
    WaitingFrom s.proc (highestlevel s.ninlevel) 0 := by
  by_contra hnone
  refine h ⟨⟨q, hq⟩, fun r hr hlevel ↦ hnone ⟨r, Nat.zero_le _, hr, hlevel⟩⟩

theorem WaitingFrom.anti {proc : Slot → Proc} {l : ℤ} {p p' : ℕ} (h : WaitingFrom proc l p')
    (hp : p ≤ p') : WaitingFrom proc l p := by
  obtain ⟨q, hq, hrest⟩ := h
  exact ⟨q, hp.trans hq, hrest⟩

theorem WaitingFrom.skip {proc : Slot → Proc} {l : ℤ} {p : ℕ} (h : WaitingFrom proc l p)
    (hp : p < nproc) (hskip : (proc ⟨p, hp⟩).state ≠ .runnable ∨ (proc ⟨p, hp⟩).level ≠ l) :
    WaitingFrom proc l (p + 1) := by
  obtain ⟨q, hq, hrun, hlevel⟩ := h
  refine ⟨q, ?_, hrun, hlevel⟩
  rcases eq_or_lt_of_le hq with rfl | hlt
  · rcases hskip with hskip | hskip
    · exact absurd hrun hskip
    · exact absurd hlevel hskip
  · exact hlt

theorem not_waitingFrom_nproc {proc : Slot → Proc} {l : ℤ} {p : ℕ} (hp : nproc ≤ p) :
    ¬WaitingFrom proc l p := by
  rintro ⟨q, hq, -⟩
  have := q.2
  omega

/-- Iterations still to go, at most, when a RUNNABLE process waits at the highest level or no
process is RUNNABLE. -/
def loopRank (proc : Slot → Proc) (ninlevel : ℤ → ℤ) (ii : ℤ) (p : ℕ) : ℕ :=
  if ii = highestlevel ninlevel ∧ WaitingFrom proc (highestlevel ninlevel) p then nproc - p
  else ((nlayer + 1 - ii) * (nproc + 1) - p).toNat

theorem loopRank_lt {proc : Slot → Proc} {ninlevel : ℤ → ℤ} {ii ii' : ℤ} {p p' : ℕ}
    (hp : p ≤ nproc) (hgood : (∃ q, (proc q).state = .runnable) →
      WaitingFrom proc (highestlevel ninlevel) 0)
    (h : iterate proc ninlevel ii p = .next ii' p') :
    loopRank proc ninlevel ii' p' < loopRank proc ninlevel ii p := by
  obtain ⟨hii, hnext⟩ := nextIter h
  -- a step to the next slot, whether a process waits ahead or not
  have hskip : ∀ hp' : p < nproc, (proc ⟨p, hp'⟩).state ≠ .runnable ∨
      (proc ⟨p, hp'⟩).level ≠ highestlevel ninlevel →
      loopRank proc ninlevel ii (p + 1) < loopRank proc ninlevel ii p := by
    intro hp' hskip
    rw [loopRank, loopRank]
    by_cases hw : ii = highestlevel ninlevel ∧ WaitingFrom proc (highestlevel ninlevel) p
    · rw [if_pos hw, if_pos ⟨hw.1, hw.2.skip hp' hskip⟩]
      omega
    · have hw' : ¬(ii = highestlevel ninlevel ∧
          WaitingFrom proc (highestlevel ninlevel) (p + 1)) :=
        fun hw' ↦ hw ⟨hw'.1, hw'.2.anti (Nat.le_succ p)⟩
      rw [if_neg hw, if_neg hw']
      simp only [nproc, nlayer] at hp' hii ⊢
      omega
  cases hnext with
  | idle hp' hrun => exact hskip hp' (.inl hrun)
  | other hp' htop hlevel => exact hskip hp' (.inr (htop ▸ hlevel))
  -- back at the first slot of the highest level, where one waits
  | restart hp' hrun htop =>
    rw [loopRank, loopRank, if_pos ⟨rfl, hgood ⟨_, hrun⟩⟩, if_neg fun hw ↦ htop hw.1]
    simp only [nproc, nlayer] at hp' hii ⊢
    omega
  | layer hp' =>
    have hnone : ¬(ii = highestlevel ninlevel ∧
        WaitingFrom proc (highestlevel ninlevel) p) := fun hw ↦ not_waitingFrom_nproc hp' hw.2
    rw [loopRank, loopRank, if_neg hnone]
    simp only [nproc, nlayer] at hp hp' hii ⊢
    split <;> omega

theorem loopRank_le {proc : Slot → Proc} {ninlevel : ℤ → ℤ} {ii : ℤ} {p : ℕ} (hii : 0 ≤ ii) :
    loopRank proc ninlevel ii p ≤ (nlayer + 1) * (nproc + 1) := by
  rw [loopRank]
  simp only [nproc, nlayer]
  split <;> omega

/-! ## Inside the layer loop -/

/-- CPU `c` is in the layer loop, holding `ptable.lock`. -/
def Scanning (c : Fin ncpu) (s : Kernel ncpu) : Prop := ∃ ii p, s.cpu c = .scan ii p

/-- CPU `c` makes only finitely many more iterations before it dispatches a process or releases
`ptable.lock`, whatever the other CPUs do meanwhile. -/
def LeavesLoop (c : Fin ncpu) (s : Kernel ncpu) : Prop :=
  ¬Diverges step Act.Whole (· = .scan c) (Scanning c) s

theorem schedulerStep_scanning {ii : ℤ} {p : ℕ} (ht : Scanning c (schedulerStep c ii p s)) :
    ∃ ii' p', iterate s.proc s.ninlevel ii p = .next ii' p' ∧
      schedulerStep c ii p s = s.setCpu c (.scan ii' p') := by
  obtain ⟨ii₁, p₁, ht⟩ := ht
  rw [schedulerStep_eq] at ht ⊢
  split at ht
  · next ii' p' hit => exact ⟨ii', p', hit, rfl⟩
  · next q hit =>
    obtain ⟨p₂, -, hcpu⟩ := dispatch_cpu (s := s) c q ii
    rw [hcpu, update_self] at ht
    simp at ht
  · simp at ht

theorem highestlevel_eq_zero {n : ℤ → ℤ} (h : n 0 ≠ 0) : highestlevel n = 0 := by
  simp [highestlevel, highestFrom, nlayer, h]

/-- A completed fork raises the highest level to 0. -/
theorem highestlevel_fork (h : Counted s)
    (hn : t.ninlevel = update s.ninlevel 0 (s.ninlevel 0 + 1)) :
    highestlevel t.ninlevel = 0 := by
  apply highestlevel_eq_zero
  have hcount := h.2 0 le_rfl (by decide)
  rw [hn, update_self, hcount]
  omega

theorem not_stuck_background (h : Counted s) (hs : ¬Stuck s) (hb : Background s t) :
    ¬Stuck t := by
  rintro ⟨⟨q, hq⟩, hall⟩
  rcases hb.same_or_fork with ⟨hn, hrun⟩ | ⟨hn, r, hr, hlevel⟩
  · refine hs ⟨⟨q, hrun q hq⟩, fun r hr ↦ ?_⟩
    rw [← hn, ← hb.level]
    exact hall r (hb.runnable r hr)
  · exact hall r hr (hlevel.trans (highestlevel_fork h hn).symm)

/-! ## It ends when the highest level has a RUNNABLE process -/

/-- A RUNNABLE process at level 0 stays the best choice whatever the other CPUs do. -/
def TopWaiting (s : Kernel ncpu) : Prop :=
  highestlevel s.ninlevel = 0 ∧ WaitingFrom s.proc 0 0

instance (s : Kernel ncpu) : Decidable (TopWaiting s) := inferInstanceAs (Decidable (_ ∧ _))

def rank (c : Fin ncpu) (s : Kernel ncpu) : ℕ :=
  (if TopWaiting s then 0 else (nlayer + 1) * (nproc + 1) + 1) +
    match s.cpu c with
    | .scan ii p => loopRank s.proc s.ninlevel ii p
    | _ => 0

theorem rank_eq {ii : ℤ} {p : ℕ} (hc : s.cpu c = .scan ii p) :
    rank c s = (if TopWaiting s then 0 else (nlayer + 1) * (nproc + 1) + 1) +
      loopRank s.proc s.ninlevel ii p := by
  rw [rank, hc]

theorem rank_tick (hr : OnCpu s) (hs : ¬Stuck s) {ii : ℤ} {p : ℕ} (hc : s.cpu c = .scan ii p)
    (ht : Scanning c (schedulerStep c ii p s)) : rank c (schedulerStep c ii p s) < rank c s := by
  obtain ⟨ii', p', hit, heq⟩ := schedulerStep_scanning ht
  have hrange := hr.inRange c
  rw [hc] at hrange
  have hlt := loopRank_lt hrange.2.2 (fun ⟨q, hq⟩ ↦ waitingFrom_of_not_stuck hs hq) hit
  have hcpu : (s.setCpu c (.scan ii' p')).cpu c = .scan ii' p' := by simp
  rw [heq, rank_eq hc, rank_eq hcpu]
  exact Nat.add_lt_add_left hlt _

theorem WaitingFrom.background {l : ℤ} {p : ℕ} (h : WaitingFrom s.proc l p)
    (hb : Background s t) : WaitingFrom t.proc l p := by
  obtain ⟨q, hp, hq, hlevel⟩ := h
  exact ⟨q, hp, hb.runnable q hq, (hb.level q).trans hlevel⟩

theorem waitingFrom_congr (hb : Background s t)
    (hrun : ∀ q, (t.proc q).state = .runnable → (s.proc q).state = .runnable) (l : ℤ) (p : ℕ) :
    WaitingFrom t.proc l p ↔ WaitingFrom s.proc l p := by
  refine ⟨?_, fun h ↦ h.background hb⟩
  rintro ⟨q, hp, hq, hlevel⟩
  exact ⟨q, hp, hrun q hq, (hb.level q).symm.trans hlevel⟩

theorem rank_background (h : Counted s) (hr : OnCpu s) (hb : Background s t) {ii : ℤ} {p : ℕ}
    (hc : s.cpu c = .scan ii p) : rank c t ≤ rank c s := by
  have hct : t.cpu c = .scan ii p := by rw [hb.cpu, hc]
  have hrange := hr.inRange c
  rw [hc] at hrange
  rw [rank_eq hc, rank_eq hct]
  rcases hb.same_or_fork with ⟨hn, hrun⟩ | ⟨hn, q, hq, hlevel⟩
  · -- the loop sees no difference
    have htop : TopWaiting t ↔ TopWaiting s := by
      rw [TopWaiting, TopWaiting, hn, waitingFrom_congr hb hrun]
    have hloop : loopRank t.proc t.ninlevel ii p = loopRank s.proc s.ninlevel ii p := by
      rw [loopRank, loopRank, hn]
      simp only [waitingFrom_congr hb hrun]
    simp only [htop, hloop, le_refl]
  -- a child at level 0: from now on the loop heads for that level
  · have hzero := highestlevel_fork h hn
    have htop : TopWaiting t := ⟨hzero, q, Nat.zero_le _, hq, hlevel⟩
    have hbound : loopRank t.proc t.ninlevel ii p ≤ _ := loopRank_le hrange.1
    rw [if_pos htop]
    split
    · next hs =>
      -- more processes to find at level 0
      rw [loopRank, loopRank, hzero, hs.1]
      by_cases hw : ii = 0 ∧ WaitingFrom s.proc 0 p
      · rw [if_pos hw, if_pos ⟨hw.1, hw.2.background hb⟩]
      · rw [if_neg hw]
        have hp := hrange.2.2
        have hii := hrange.2.1
        simp only [nproc, nlayer] at hp hii ⊢
        split <;> omega
    · omega

theorem Stuck.highestlevel_lt (h : Counted s) (hs : Stuck s) :
    highestlevel s.ninlevel < nlayer - 1 := by
  obtain ⟨⟨q, hq⟩, hall⟩ := hs
  have hle := highestlevel_le h (ready_of_runnable hq)
  have hlt := (h.1 q).2
  have hne := hall q hq
  omega

/-- The loop variables from which the loop finds a RUNNABLE process before it ends. -/
def Trapped (proc : Slot → Proc) (ii : ℤ) (p : ℕ) : Prop :=
  ii < nlayer - 1 ∨ ii = nlayer - 1 ∧ ∃ q : Slot, p ≤ q ∧ (proc q).state = .runnable

instance (proc : Slot → Proc) (ii : ℤ) (p : ℕ) : Decidable (Trapped proc ii p) :=
  inferInstanceAs (Decidable (_ ∨ _))

/-- All processes of the highest level are RUNNING on other CPUs, and the loop of the CPU `c` will
come to a RUNNABLE process. -/
def Caught (c : Fin ncpu) (s : Kernel ncpu) : Prop :=
  Stuck s ∧ match s.cpu c with
    | .scan ii p => Trapped s.proc ii p
    | _ => False

theorem caught_iff {ii : ℤ} {p : ℕ} (hc : s.cpu c = .scan ii p) :
    Caught c s ↔ Stuck s ∧ Trapped s.proc ii p := by
  rw [Caught, hc]

theorem Trapped.congr {proc proc' : Slot → Proc}
    (h : ∀ q, (proc' q).state = .runnable → (proc q).state = .runnable) {ii : ℤ} {p : ℕ}
    (ht : Trapped proc' ii p) : Trapped proc ii p := by
  refine ht.imp_right fun ⟨hii, q, hq, hrun⟩ ↦ ⟨hii, q, hq, h q hrun⟩

/-- The loop is past all RUNNABLE processes of its last level: it goes on to its end. -/
theorem iterate_of_not_trapped {proc : Slot → Proc} {ninlevel : ℤ → ℤ} {ii ii' : ℤ} {p p' : ℕ}
    (hnot : ¬Trapped proc ii p) (htop : highestlevel ninlevel < nlayer - 1)
    (h : iterate proc ninlevel ii p = .next ii' p') :
    ¬Trapped proc ii' p' ∧ (ii' = ii ∧ p' = p + 1 ∧ p < nproc ∨ ii' = ii + 1 ∧ p' = 0) := by
  rw [Trapped, not_or, not_and, not_lt] at hnot
  obtain ⟨hii, hnone⟩ := hnot
  obtain ⟨hlt, hnext⟩ := nextIter h
  have hlast : ii = nlayer - 1 := by omega
  have hnone := hnone hlast
  cases hnext with
  | idle hp hskip =>
    refine ⟨?_, .inl ⟨rfl, rfl, hp⟩⟩
    rintro (hless | ⟨-, q, hq, hrun⟩)
    · omega
    · exact hnone ⟨q, (Nat.le_succ p).trans hq, hrun⟩
  | other hp heq => omega
  | restart hp hrun => exact absurd ⟨⟨p, hp⟩, le_rfl, hrun⟩ hnone
  | layer hp =>
    refine ⟨?_, .inr ⟨rfl, rfl⟩⟩
    rintro (hless | ⟨hlast', -⟩) <;> omega

/-- Iterations to the end of the loop, for one that finds no RUNNABLE process any more. -/
def tailRank (c : Fin ncpu) (s : Kernel ncpu) : ℕ :=
  match s.cpu c with
  | .scan ii p => ((nlayer + 1 - ii) * (nproc + 1) - p).toNat
  | _ => 0

/-- `rank`, and before that, as long as there is no process to find, `tailRank`. -/
def fullRank (c : Fin ncpu) (s : Kernel ncpu) : ℕ :=
  if Stuck s then 2 * ((nlayer + 1) * (nproc + 1)) + 1 + tailRank c s else rank c s

theorem rank_le {ii : ℤ} {p : ℕ} (hc : s.cpu c = .scan ii p) (hii : 0 ≤ ii) :
    rank c s ≤ 2 * ((nlayer + 1) * (nproc + 1)) + 1 := by
  have hloop : loopRank s.proc s.ninlevel ii p ≤ (nlayer + 1) * (nproc + 1) := loopRank_le hii
  rw [rank_eq hc]
  split <;> omega

theorem fullRank_tick (h : Counted s) (hr : OnCpu s) {ii : ℤ} {p : ℕ} (hc : s.cpu c = .scan ii p)
    (hs : ¬Caught c s) (ht : Scanning c (schedulerStep c ii p s)) :
    ¬Caught c (schedulerStep c ii p s) ∧
      fullRank c (schedulerStep c ii p s) < fullRank c s := by
  obtain ⟨ii', p', hit, heq⟩ := schedulerStep_scanning ht
  have hcpu : (s.setCpu c (.scan ii' p')).cpu c = .scan ii' p' := by simp
  have hstuck : Stuck (s.setCpu c (.scan ii' p')) ↔ Stuck s := Iff.rfl
  by_cases hst : Stuck s
  · -- the end of the loop comes nearer
    have hnot : ¬Trapped s.proc ii p := fun htr ↦ hs ((caught_iff hc).mpr ⟨hst, htr⟩)
    obtain ⟨hnot', hvars⟩ := iterate_of_not_trapped hnot (hst.highestlevel_lt h) hit
    have hrange := hr.inRange c
    rw [hc] at hrange
    rw [heq]
    refine ⟨fun hcaught ↦ hnot' ((caught_iff hcpu).mp hcaught).2, ?_⟩
    rw [fullRank, fullRank, if_pos hst, if_pos (hstuck.mpr hst), tailRank, tailRank, hc, hcpu]
    have hii := (nextIter hit).1
    have hp := hrange.2.2
    simp only [nproc, nlayer] at hii hp ⊢
    omega
  · have hlt := rank_tick hr hst hc ht
    rw [heq] at hlt ⊢
    refine ⟨fun hcaught ↦ hst (hstuck.mp hcaught.1), ?_⟩
    rwa [fullRank, fullRank, if_neg hst, if_neg (mt hstuck.mp hst)]

theorem fullRank_background (h : Counted s) (hr : OnCpu s) (hb : Background s t) {ii : ℤ} {p : ℕ}
    (hc : s.cpu c = .scan ii p) (hs : ¬Caught c s) :
    ¬Caught c t ∧ fullRank c t ≤ fullRank c s := by
  have hct : t.cpu c = .scan ii p := by rw [hb.cpu, hc]
  by_cases hst : Stuck s
  · rcases hb.same_or_fork with ⟨hn, hrun⟩ | ⟨hn, q, hq, hlevel⟩
    · -- the loop sees no difference
      have hnot : ¬Trapped s.proc ii p := fun htr ↦ hs ((caught_iff hc).mpr ⟨hst, htr⟩)
      have hstt : Stuck t := by
        obtain ⟨⟨q, hq⟩, hall⟩ := hst
        refine ⟨⟨q, hb.runnable q hq⟩, fun r hr ↦ ?_⟩
        rw [hn, hb.level]
        exact hall r (hrun r hr)
      refine ⟨fun hcaught ↦ hnot (((caught_iff hct).mp hcaught).2.congr hrun), ?_⟩
      rw [fullRank, fullRank, if_pos hst, if_pos hstt, tailRank, tailRank, hc, hct]
    · have hstt : ¬Stuck t := fun hstt ↦
        hstt.2 q hq (hlevel.trans (highestlevel_fork h hn).symm)
      refine ⟨fun hcaught ↦ hstt hcaught.1, ?_⟩
      have hrange := hr.inRange c
      rw [hc] at hrange
      have hle := rank_le hct hrange.1
      rw [fullRank, fullRank, if_pos hst, if_neg hstt]
      omega
  · have hstt := not_stuck_background h hst hb
    have hle := rank_background h hr hb hc
    refine ⟨fun hcaught ↦ hstt hcaught.1, ?_⟩
    rwa [fullRank, fullRank, if_neg hst, if_neg hstt]

theorem leavesLoop_of_not_caught (h : ReachableWhole s) (hs : ¬Caught c s) : LeavesLoop c s := by
  refine not_diverges_of_rank (P := fun s ↦ ReachableWhole s ∧ ¬Caught c s) (fullRank c) ?_ ?_ ?_
    ⟨h, hs⟩
  · rintro s a t ⟨h, hs⟩ ⟨ii, p, hc⟩ ht hstep hwhole
    refine ⟨h.snoc hstep hwhole, ?_⟩
    by_cases ha : a = .scan c
    · rw [ha, scan_step hc] at hstep
      obtain rfl := Option.some.inj hstep
      exact (fullRank_tick h.counted (.of_reachable h.reachable) hc hs ht).1
    · exact (fullRank_background h.counted (.of_reachable h.reachable)
        (background (.of_reachable h.reachable) hc hstep ha hwhole) hc hs).1
  · rintro s a t ⟨h, hs⟩ ⟨ii, p, hc⟩ ht hstep hwhole
    by_cases ha : a = .scan c
    · rw [ha, scan_step hc] at hstep
      obtain rfl := Option.some.inj hstep
      exact (fullRank_tick h.counted (.of_reachable h.reachable) hc hs ht).2.le
    · exact (fullRank_background h.counted (.of_reachable h.reachable)
        (background (.of_reachable h.reachable) hc hstep ha hwhole) hc hs).2
  · rintro s a t ⟨h, hs⟩ ⟨ii, p, hc⟩ ht hstep rfl
    rw [scan_step hc] at hstep
    obtain rfl := Option.some.inj hstep
    exact (fullRank_tick h.counted (.of_reachable h.reachable) hc hs ht).2

/-! ## It never ends when all processes of the highest level are RUNNING -/

theorem Stuck.iterate (h : Counted s) (hs : Stuck s) {ii : ℤ} {p : ℕ} (ht : Trapped s.proc ii p) :
    ∃ ii' p', iterate s.proc s.ninlevel ii p = .next ii' p' ∧ Trapped s.proc ii' p' := by
  have htop := hs.highestlevel_lt h
  have hii : ii < nlayer := by
    rcases ht with ht | ⟨ht, -⟩ <;> omega
  cases hit : Mlfq.iterate s.proc s.ninlevel ii p with
  | next ii' p' =>
    refine ⟨ii', p', rfl, ?_⟩
    cases (nextIter hit).2 with
    | idle hp hskip =>
      refine ht.imp_right fun ⟨hlast, q, hq, hrun⟩ ↦ ⟨hlast, q, ?_, hrun⟩
      rcases eq_or_lt_of_le hq with rfl | hlt
      · exact absurd hrun hskip
      · exact hlt
    | other hp heq => exact .inl (by omega)
    -- every RUNNABLE process sends the loop back to the highest level
    | restart => exact .inl htop
    | layer hp =>
      rcases ht with ht | ⟨-, q, hq, -⟩
      · rcases eq_or_lt_of_le (show ii + 1 ≤ nlayer - 1 by omega) with he | hlt
        · obtain ⟨q, hq⟩ := hs.1
          exact .inr ⟨he, q, Nat.zero_le _, hq⟩
        · exact .inl hlt
      -- the last level does not end before the loop has come to a RUNNABLE process
      · have := q.2
        omega
  | dispatch q =>
    obtain ⟨hq, hlevel, heq, -⟩ := iterate_dispatch hit
    exact absurd (hlevel.trans heq) (hs.2 q hq)
  | release =>
    have := iterate_release hit
    omega

theorem Stuck.diverges (h : Counted s) (hs : Stuck s) {ii : ℤ} {p : ℕ} (hc : s.cpu c = .scan ii p)
    (ht : Trapped s.proc ii p) : ¬LeavesLoop c s := by
  rw [LeavesLoop, not_not]
  -- only this CPU's loop variables ever change
  refine diverges_of_closed (P := fun t : Kernel ncpu ↦ t.proc = s.proc ∧
    t.ninlevel = s.ninlevel ∧ ∃ ii p, t.cpu c = .scan ii p ∧ Trapped s.proc ii p) (Act.scan c)
    ?_ ?_ ?_ ⟨rfl, rfl, ii, p, hc, ht⟩
  · exact fun _ ↦ ⟨by simp, by simp⟩
  · rfl
  rintro t ⟨hp, hn, ii, p, hc, ht⟩
  obtain ⟨ii', p', hit, ht'⟩ := hs.iterate h ht
  refine ⟨⟨ii, p, hc⟩, _, scan_step hc, ?_⟩
  rw [schedulerStep_eq, hp, hn, hit]
  exact ⟨hp, hn, ii', p', by simp, ht'⟩

/-- **Progress of the layer loop.** A CPU that is in the loop, wherever its loop variables stand,
leaves it if and only if some RUNNABLE process is at the highest level, or none is RUNNABLE, or the
loop has passed them all at its last level. -/
theorem leavesLoop_iff (ncpu : ℕ) (s : Kernel ncpu) (c : Fin ncpu) (ii : ℤ) (p : ℕ)
    (h : ReachableWhole s) (hc : s.cpu c = .scan ii p) :
    LeavesLoop c s ↔ ¬(Stuck s ∧ Trapped s.proc ii p) := by
  rw [← caught_iff hc]
  refine ⟨fun hleaves hcaught ↦ ?_, leavesLoop_of_not_caught h⟩
  obtain ⟨hs, ht⟩ := (caught_iff hc).mp hcaught
  exact hs.diverges h.counted hc ht hleaves

/-- Some moves of the first process on the CPU `c`: a tick, after which it is dispatched again. -/
def tick (c : Fin ncpu) : List (Act ncpu) := [.timer c, .yield c, .scan c, .resume c]

/-- The first process forks a child and is moved to level 1 by its fifth dispatch; the CPU goes on
with the slot behind it, at level 0, while the child waits there. -/
def pastDemotion : List (Act 1) :=
  [.acquire 0, .scan 0, .resume 0, .allocproc 0, .fork 0] ++ tick 0 ++ tick 0 ++ tick 0 ++ tick 0 ++
    [.timer 0, .yield 0]

theorem leavesLoop_pastDemotion : ∃ s : Kernel 1, ReachableWhole s ∧ s.cpu 0 = .scan 0 1 ∧
    (s.proc initproc).level = 1 ∧ LeavesLoop 0 s := by
  have hrun : (replay step pastDemotion (boot 1)).map (fun s ↦
      (s.cpu 0, (s.proc initproc).level, decide (Stuck s))) = some (.scan 0 1, 1, false) := by
    decide +kernel
  obtain ⟨s, hs, hval⟩ := Option.map_eq_some_iff.mp hrun
  obtain ⟨hc, hlevel, hstuck⟩ : s.cpu 0 = .scan 0 1 ∧ (s.proc initproc).level = 1 ∧ ¬Stuck s := by
    simpa using hval
  have h : ReachableWhole s :=
    reachableWhole_of_replay hs (by simp [pastDemotion, tick, Act.Whole])
  exact ⟨s, h, hc, hlevel, (leavesLoop_iff 1 s 0 0 1 h hc).mpr fun hcaught ↦ hstuck hcaught.1⟩

/-! ## Two CPUs -/

/-- CPU 1 forks a child from the first process and runs it for five ticks, then the child; CPU 0
enters the layer loop. -/
def twoCpus : List (Act 2) :=
  [.acquire 1, .scan 1, .resume 1, .allocproc 1, .fork 1] ++ tick 1 ++ tick 1 ++ tick 1 ++ tick 1 ++
    tick 1 ++ [.acquire 0]

/-- The child is RUNNING at level 0 on CPU 1, its parent RUNNABLE at level 1, and CPU 0 never gets
out of the layer loop. -/
theorem not_leavesLoop_twoCpus :
    ¬∀ (s : Kernel 2) (c : Fin 2) (ii : ℤ) (p : ℕ), ReachableWhole s → s.cpu c = .scan ii p →
      LeavesLoop c s := by
  intro hall
  have hrun : (replay step twoCpus (boot 2)).map (fun s ↦ (s.cpu 0, decide (Stuck s)))
      = some (.scan 0 0, true) := by
    decide +kernel
  obtain ⟨s, hs, hval⟩ := Option.map_eq_some_iff.mp hrun
  obtain ⟨hc, hstuck⟩ : s.cpu 0 = .scan 0 0 ∧ Stuck s := by simpa using hval
  have h : ReachableWhole s := reachableWhole_of_replay hs (by simp [twoCpus, tick, Act.Whole])
  exact hstuck.diverges h.counted hc (.inl (by decide)) (hall s 0 0 0 h hc)

end CS537.Mlfq
