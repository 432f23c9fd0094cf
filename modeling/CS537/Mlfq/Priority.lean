import CS537.Mlfq.Progress

/-!
# Priority and work conservation on one CPU

On a single CPU nothing is RUNNING while the scheduler scans the table, so the level it computes
from the counters is the level of some RUNNABLE process. The scheduler picks a process of that
level. A process whose slice is used up by the dispatch is moved down before it runs.
-/

namespace CS537.Mlfq

open Function Transition Wrapping

section Dispatch

variable {ncpu : ℕ} {s t : Kernel ncpu} {a : Act ncpu} {q : Slot}

/-- No RUNNABLE process is above the level at which a process is picked. -/
theorem level_le_of_dispatches (h : Counted s) (hstep : step a s = some t)
    (hq : Dispatches ⟨s, a, t⟩ q) {r : Slot} (hr : (t.proc r).state = .runnable) :
    (s.proc q).level ≤ (t.proc r).level := by
  obtain ⟨c, ii, p, -, -, hit, rfl⟩ := dispatches_inv hstep hq
  obtain ⟨-, hlevel, htop, -⟩ := iterate_dispatch hit
  have hne : r ≠ q := by
    rintro rfl
    have hrun := hq.2
    rw [hr] at hrun
    simp at hrun
  rw [dispatch_proc, update_of_ne hne] at hr ⊢
  rw [hlevel, htop]
  exact highestlevel_le h (ready_of_runnable hr)

/-- The dispatch moves a process down only when it uses up the slice of its level. -/
theorem level_of_dispatches (hstep : step a s = some t) (hq : Dispatches ⟨s, a, t⟩ q) :
    (t.proc q).level = if toInt32 ((s.proc q).timeticks (s.proc q).level + 1) %
        mlpqTimeticks (s.proc q).level = 0 ∧ (s.proc q).level ≠ nlayer - 1
      then (s.proc q).level + 1 else (s.proc q).level := by
  obtain ⟨c, ii, p, -, -, -, rfl⟩ := dispatches_inv hstep hq
  rw [dispatch_proc, update_self, Proc.charged]

end Dispatch

/-! ## One CPU -/

variable {s t : Kernel 1}

theorem scan_of_scanning (h : Shape s) (hc : Scanning 0 s) {a : Act 1} (hstep : step a s = some t) :
    a = .scan 0 := by
  obtain ⟨ii, p, hc⟩ := hc
  have hlock := h.scan_lock hc
  have hnot : ∀ {c : Fin 1} {q : Slot}, s.current c ≠ some q := by
    intro c q hq
    obtain ⟨_, _, hrun⟩ := cpu_of_current hq
    rw [Subsingleton.elim c 0, hc] at hrun
    simp at hrun
  cases trans_of_step hstep with
  | @scan c' => rw [Subsingleton.elim c' 0]
  | @resume c' _ _ _ hc' =>
    rw [Subsingleton.elim c' 0, hc] at hc'
    simp at hc'
  | timer hq => exact absurd (interruptible_eq_some hq).1 hnot
  | fault hq => exact absurd (interruptible_eq_some (caller_eq_some hq).1).1 hnot
  | forkFail hq => exact absurd (interruptible_eq_some (child_eq_some hq).1).1 hnot
  | forkPublish hq => exact absurd (interruptible_eq_some (child_eq_some hq).1).1 hnot
  | forkLoad hq | forkStore hq | forkTorn hq => exact absurd (interruptible_eq_some hq).1 hnot
  | fork hq => exact absurd (interruptible_eq_some (child_eq_some hq).1).1 hnot
  -- the rest needs the lock, which the scanning CPU holds
  | acquire _ hl | boost _ _ hl | yield _ _ hl | sleep _ hl | wakeup hl | exit _ hl | wait _ hl
  | kill _ hl | allocproc _ hl =>
    rw [hlock] at hl
    simp at hl

/-- Nothing is RUNNING while the only CPU scans, so the highest level has a RUNNABLE process. -/
theorem not_stuck (h : ReachableWhole s) (hc : Scanning 0 s) : ¬Stuck s := by
  obtain ⟨ii, p, hc⟩ := hc
  rintro ⟨⟨q, hq⟩, hall⟩
  obtain ⟨r, hr | hr, hlevel⟩ := exists_ready_highestlevel h.counted (ready_of_runnable hq)
  · exact hall r hr hlevel
  · obtain ⟨c, _, _, hrun⟩ := (OnCpu.of_reachable h.reachable).placed hr
    rw [Subsingleton.elim c 0, hc] at hrun
    simp at hrun

/-- While the only CPU scans, the highest level is the level of any RUNNABLE process that no other
one precedes. -/
theorem highestlevel_of_lowest (h : ReachableWhole s) (hc : Scanning 0 s) {q : Slot}
    (hq : (s.proc q).state = .runnable)
    (hlow : ∀ r, (s.proc r).state = .runnable → (s.proc q).level ≤ (s.proc r).level) :
    highestlevel s.ninlevel = (s.proc q).level := by
  have hready := ready_of_runnable hq
  refine le_antisymm (highestlevel_le h.counted hready) ?_
  obtain ⟨r, hr | hr, hlevel⟩ := exists_ready_highestlevel h.counted hready
  · exact hlevel ▸ hlow r hr
  · obtain ⟨c, _, _, hrun⟩ := (OnCpu.of_reachable h.reachable).placed hr
    obtain ⟨_, _, hc⟩ := hc
    rw [Subsingleton.elim c 0, hc] at hrun
    cases hrun

/-- The loop has not passed the process it will dispatch. -/
structure Ahead (s : Kernel 1) (ii : ℤ) (p : ℕ) : Prop where
  cpu : s.cpu 0 = .scan ii p
  runnable : ∃ q, (s.proc q).state = .runnable
  le : ii ≤ highestlevel s.ninlevel
  waiting : ii = highestlevel s.ninlevel → WaitingFrom s.proc (highestlevel s.ninlevel) p

theorem Ahead.next {ii ii' : ℤ} {p p' : ℕ} (h : Ahead s ii p) (hs : ¬Stuck s)
    (hit : iterate s.proc s.ninlevel ii p = .next ii' p') :
    Ahead (s.setCpu 0 (.scan ii' p')) ii' p' := by
  obtain ⟨q, hq⟩ := h.runnable
  have hstart := waitingFrom_of_not_stuck hs hq
  obtain ⟨-, hnext⟩ := nextIter hit
  refine ⟨by simp, ⟨q, hq⟩, ?_, ?_⟩
  -- the loop does not go below the highest level before it has dispatched there
  · cases hnext with
    | idle => exact h.le
    | other => exact h.le
    | restart => exact le_rfl
    | layer hp =>
      rcases eq_or_lt_of_le h.le with he | hlt
      · exact absurd (h.waiting he) (not_waitingFrom_nproc hp)
      · exact hlt
  · cases hnext with
    | idle hp hskip => exact fun he ↦ (h.waiting he).skip hp (.inl hskip)
    | other hp he hskip => exact fun _ ↦ (h.waiting he).skip hp (.inr (he ▸ hskip))
    | restart => exact fun _ ↦ hstart
    | layer => exact fun _ ↦ hstart

/-- The rank of the CPU's loop variables. -/
def cpuRank (s : Kernel 1) : ℕ :=
  match s.cpu 0 with
  | .scan ii p => loopRank s.proc s.ninlevel ii p
  | _ => 0

theorem cpuRank_eq {ii : ℤ} {p : ℕ} (hc : s.cpu 0 = .scan ii p) :
    cpuRank s = loopRank s.proc s.ninlevel ii p := by
  rw [cpuRank, hc]

/-- One iteration dispatches, or keeps the process to be dispatched ahead and lowers the rank. -/
theorem Ahead.iterate (h : ReachableWhole s) {ii : ℤ} {p : ℕ} (ha : Ahead s ii p) :
    (schedulerStep 0 ii p s).lock = some 0 ∧
      ((∃ q ii' p', (schedulerStep 0 ii p s).cpu 0 = .running q ii' p') ∨
        (∃ ii' p', Ahead (schedulerStep 0 ii p s) ii' p') ∧
          cpuRank (schedulerStep 0 ii p s) < cpuRank s) := by
  have hs := not_stuck h ⟨ii, p, ha.cpu⟩
  have hlock := (Shape.of_reachable h.reachable).scan_lock ha.cpu
  have hrange := (OnCpu.of_reachable h.reachable).inRange 0
  rw [ha.cpu] at hrange
  rw [schedulerStep_eq]
  split
  · next ii' p' hit =>
    have hnext := ha.next hs hit
    refine ⟨hlock, .inr ⟨⟨ii', p', hnext⟩, ?_⟩⟩
    rw [cpuRank_eq hnext.cpu, cpuRank_eq ha.cpu]
    refine loopRank_lt hrange.2.2 (fun hfull ↦ ?_) hit
    obtain ⟨q, hq⟩ := hfull
    exact waitingFrom_of_not_stuck hs hq
  · next q hit =>
    obtain ⟨p', -, hcpu⟩ := dispatch_cpu (s := s) 0 q ii
    refine ⟨?_, .inl ⟨q, ii, p', by simp [hcpu]⟩⟩
    rw [dispatch_lock, hlock]
  · next hit =>
    -- the loops do not end while a process is ahead
    have hlast := iterate_release hit
    have htop := highestlevel_mem s.ninlevel
    have hle := ha.le
    omega

/-- The scheduler only iterates, with the lock held, until it dispatches. -/
theorem within_dispatch (h : ReachableWhole s) {ii : ℤ} {p : ℕ} (ha : Ahead s ii p) {n : ℕ}
    (hn : cpuRank s < n) :
    Within step (fun m ↦ m.act = .scan 0 ∧ m.dst.lock = some 0)
      (fun t ↦ ∃ q ii p, t.cpu 0 = .running q ii p) n s := by
  refine within_of_rank (P := fun s ↦ ReachableWhole s ∧ ∃ ii p, Ahead s ii p) cpuRank ?_ ?_
    ⟨h, ii, p, ha⟩ hn
  · rintro s ⟨-, ii, p, ha⟩ -
    exact ⟨.scan 0, _, scan_step ha.cpu⟩
  · rintro s a t ⟨h, ii, p, ha⟩ - hstep
    obtain rfl := scan_of_scanning (.of_reachable h.reachable) ⟨ii, p, ha.cpu⟩ hstep
    have hwhole : ReachableWhole t := h.snoc hstep (by simp [Act.Whole])
    rw [scan_step ha.cpu] at hstep
    obtain rfl := Option.some.inj hstep
    obtain ⟨hlock, hnext⟩ := ha.iterate h
    refine ⟨⟨rfl, hlock⟩, hnext.imp_right fun hnext ↦ ⟨⟨hwhole, hnext.1⟩, hnext.2⟩⟩

/-- **Strict priority and work conservation on one CPU.** No RUNNABLE process is above the level
at which a process is picked, and the dispatch changes that level only at the end of a slice. If a
process is RUNNABLE when the scheduler acquires `ptable.lock`, the scheduler only iterates, without
releasing the lock, until it dispatches one, after at most `(NLAYER + 1) * (NPROC + 1) + 1`
iterations. -/
theorem priority_and_conservation (s t : Kernel 1) (h : ReachableWhole s) :
    (∀ a q, step a s = some t → Dispatches ⟨s, a, t⟩ q →
      (∀ r, (t.proc r).state = .runnable → (s.proc q).level ≤ (t.proc r).level) ∧
        (t.proc q).level = if toInt32 ((s.proc q).timeticks (s.proc q).level + 1) %
            mlpqTimeticks (s.proc q).level = 0 ∧ (s.proc q).level ≠ nlayer - 1
          then (s.proc q).level + 1 else (s.proc q).level) ∧
    (step (.acquire 0) s = some t → (∃ q, (s.proc q).state = .runnable) →
      Within step (fun m ↦ m.act = .scan 0 ∧ m.dst.lock = some 0)
        (fun u ↦ ∃ q ii p, u.cpu 0 = .running q ii p) ((nlayer + 1) * (nproc + 1) + 1) t) := by
  refine ⟨fun a q hstep hq ↦ ⟨fun r hr ↦ level_le_of_dispatches h.counted hstep hq hr,
    level_of_dispatches hstep hq⟩, fun hstep hrun ↦ ?_⟩
  have ht : ReachableWhole t := h.snoc hstep (by simp [Act.Whole])
  obtain ⟨-, hs⟩ := Option.ite_none_right_eq_some.mp hstep
  obtain rfl := Option.some.inj hs
  obtain ⟨q, hq⟩ := hrun
  have hcpu : ((s.setCpu 0 (.scan 0 0)).setLock (some 0)).cpu 0 = .scan 0 0 := by simp
  have hwait := waitingFrom_of_not_stuck (not_stuck ht ⟨0, 0, hcpu⟩) hq
  refine within_dispatch ht ⟨hcpu, ⟨q, hq⟩, (highestlevel_mem _).1, fun _ ↦ hwait⟩ ?_
  rw [cpuRank_eq hcpu]
  exact Nat.lt_succ_of_le (loopRank_le le_rfl)

/-- The slot of the first process's first child. -/
def firstChild : Slot := ⟨1, by decide⟩

/-- The first process forks a child and is dispatched until the last tick of its slice. -/
def lastTick : List (Act 1) :=
  let tick : List (Act 1) := [.timer 0, .yield 0, .scan 0, .resume 0]
  [.acquire 0, .scan 0, .resume 0, .allocproc 0, .fork 0] ++ tick ++ tick ++ tick ++
    [.timer 0, .yield 0]

section Example

/-- The first process, at level 1, and its child, at level 0, have slept and been woken up. -/
def twoLevels : List (Act 1) :=
  lastTick ++ [.scan 0, .resume 0, .sleep 0 (.other 0), .scan 0, .resume 0, .sleep 0 (.other 1)] ++
    List.replicate 260 (.scan 0) ++ [.wakeup 0 (.other 0), .wakeup 0 (.other 1)]

theorem twoLevels_replay : ((replay step twoLevels (boot 1)).bind fun s ↦
    (step (.acquire 0) s).bind fun t ↦ (step (.scan 0) t).bind fun u ↦ (step (.scan 0) u).map
      fun v ↦ ((s.proc initproc).state, (s.proc firstChild).state, (u.proc firstChild).state,
        (v.proc firstChild).state, (v.proc initproc).state, (v.proc initproc).level))
    = some (.runnable, .runnable, .runnable, .running, .runnable, 1) := by
  decide +kernel

/-- The child is dispatched first. -/
theorem priority_and_conservation_twoLevels : ∃ t u v : Kernel 1,
    Within step (fun m ↦ m.act = .scan 0 ∧ m.dst.lock = some 0)
      (fun u ↦ ∃ q ii p, u.cpu 0 = .running q ii p) ((nlayer + 1) * (nproc + 1) + 1) t ∧
    (v.proc initproc).level = 1 ∧ (u.proc firstChild).level ≤ (v.proc initproc).level := by
  obtain ⟨s, hs, hrest⟩ := Option.bind_eq_some_iff.mp twoLevels_replay
  obtain ⟨t, ht, hrest⟩ := Option.bind_eq_some_iff.mp hrest
  obtain ⟨u, hu, hrest⟩ := Option.bind_eq_some_iff.mp hrest
  obtain ⟨v, hv, hval⟩ := Option.map_eq_some_iff.mp hrest
  obtain ⟨hinit, -, hsrc, hdst, hwait, hlevel⟩ : (s.proc initproc).state = .runnable ∧
      (s.proc firstChild).state = .runnable ∧ (u.proc firstChild).state = .runnable ∧
        (v.proc firstChild).state = .running ∧ (v.proc initproc).state = .runnable ∧
          (v.proc initproc).level = 1 := by
    simpa using hval
  have hacts : ∀ a ∈ twoLevels, a ∈ lastTick ++ [.sleep 0 (.other 0), .sleep 0 (.other 1),
      .wakeup 0 (.other 0), .wakeup 0 (.other 1)] := by
    decide +kernel
  have hwhole : ∀ a ∈ lastTick ++ [.sleep 0 (.other 0), .sleep 0 (.other 1),
      .wakeup 0 (.other 0), .wakeup 0 (.other 1)], a.Whole := by
    simp [lastTick, Act.Whole]
  have hreach : ReachableWhole s :=
    reachableWhole_of_replay hs fun a ha ↦ hwhole a (hacts a ha)
  have hreach' : ReachableWhole u :=
    (hreach.snoc ht (by simp [Act.Whole])).snoc hu (by simp [Act.Whole])
  refine ⟨t, u, v, (priority_and_conservation s t hreach).2 ht ⟨initproc, hinit⟩, hlevel, ?_⟩
  exact ((priority_and_conservation u v hreach').1 _ firstChild hv ⟨hsrc, hdst⟩).1 initproc hwait

end Example

/-! ## The last tick of a slice -/

/-- The fifth dispatch moves the first process to level 1 before it runs, while its child is
RUNNABLE at level 0. -/
theorem not_priority_at_switch :
    ¬∀ (s t : Kernel 1) (a : Act 1) (q : Slot), ReachableWhole s → step a s = some t →
      Dispatches ⟨s, a, t⟩ q →
      ∀ r, (t.proc r).state = .runnable → (t.proc q).level ≤ (t.proc r).level := by
  intro hall
  have hrun : (replay step lastTick (boot 1)).bind (fun s ↦ (step (.scan 0) s).map fun t ↦
      ((s.proc initproc).state, (t.proc initproc).state, (t.proc initproc).level,
        (t.proc firstChild).state, (t.proc firstChild).level))
      = some (.runnable, .running, 1, .runnable, 0) := by
    decide +kernel
  obtain ⟨s, hs, hstep⟩ := Option.bind_eq_some_iff.mp hrun
  obtain ⟨t, ht, hval⟩ := Option.map_eq_some_iff.mp hstep
  obtain ⟨hsrc, hdst, hlevel, hchild, hzero⟩ : (s.proc initproc).state = .runnable ∧
      (t.proc initproc).state = .running ∧ (t.proc initproc).level = 1 ∧
        (t.proc firstChild).state = .runnable ∧ (t.proc firstChild).level = 0 := by
    simpa using hval
  have h : ReachableWhole s := reachableWhole_of_replay hs (by simp [lastTick, Act.Whole])
  have hle := hall s t (.scan 0) initproc h ht ⟨hsrc, hdst⟩ firstChild hchild
  rw [hlevel, hzero] at hle
  simp at hle

end CS537.Mlfq
