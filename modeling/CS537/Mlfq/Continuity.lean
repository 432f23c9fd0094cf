import CS537.Mlfq.TableOrder

/-!
# A slice is not interrupted by equals

On one CPU a process that is dispatched with ticks of its slice left runs until it calls `sched`.
The scheduler had decremented its loop pointer, so it then looks at the same process again, and
dispatches it unless a process of a higher level has become RUNNABLE.
-/

namespace CS537.Mlfq

open Transition Wrapping

variable {s t : Kernel 1} {a : Act 1} {p : Slot}

/-! ## While the process runs -/

/-- No move changes the level of a process that is RUNNING before it: only RUNNABLE processes are
promoted or dispatched, and only an UNUSED slot is taken by a new process. -/
theorem level_of_running (hstep : step a s = some t) (hp : (s.proc p).state = .running) :
    (t.proc p).level = (s.proc p).level := by
  by_cases ha : ∃ c, a = .boost c
  · obtain ⟨c, rfl⟩ := ha
    exact (unchanged_of_checked (checked hstep p) (by rw [hp]; simp)).1
  · cases (slotMove hstep (fun c hc ↦ ha ⟨c, hc⟩) p).1 with
    | same hlevel => exact hlevel
    | dispatch _ hd =>
      have hrunnable := hp.symm.trans hd.1
      cases hrunnable
    | create hc =>
      have hunused := hp.symm.trans hc.1
      cases hunused

theorem charged_ticks (p : Proc) :
    p.charged.timeticks p.level = toInt32 (p.timeticks p.level + 1) :=
  Function.update_self ..

/-- The CPU runs `p`, dispatched in layer `l`, and will look at `p` again. -/
structure Sliced (p : Slot) (l : ℤ) (s : Kernel 1) : Prop where
  reach : ReachableWhole s
  cpu : s.cpu 0 = .running p l p
  level : (s.proc p).level = l

namespace Sliced

variable {l : ℤ}

theorem running (h : Sliced p l s) : (s.proc p).state = .running :=
  (Shape.of_reachable h.reach.reachable).running h.cpu

/-- A move either leaves the CPU with `p` or brings it back to the table entry of `p`. -/
theorem move (h : Sliced p l s) (hstep : step a s = some t) (ha : a.Whole) :
    Sliced p l t ∨ t.cpu 0 = .scan l p ∧ (t.proc p).level = l := by
  have hreach := h.reach.snoc hstep ha
  have hlevel := (level_of_running hstep h.running).trans h.level
  cases cpuMove hstep with
  | stay hcpu =>
    left
    exact ⟨hreach, by rw [hcpu, h.cpu], hlevel⟩
  | @acquire c _ hc =>
    rw [Subsingleton.elim c 0, h.cpu] at hc
    cases hc
  | @iterate c _ _ hc =>
    rw [Subsingleton.elim c 0, h.cpu] at hc
    cases hc
  | @leave _ _ c q ii k hc hcpu =>
    right
    rw [Subsingleton.elim c 0] at hc hcpu
    obtain ⟨rfl, rfl, rfl⟩ := Cpu.running.inj (h.cpu.symm.trans hc)
    exact ⟨by rw [hcpu, Function.update_self], hlevel⟩

/-- As long as the CPU does not scan, it stays with `p`. -/
theorem run {tr : List (Move (Kernel 1) (Act 1))} (h : Sliced p l s) (hrun : Run step s tr t)
    (hwhole : ∀ m ∈ tr, m.act.Whole) (haway : ∀ m ∈ tr, ¬Scanning 0 m.dst) : Sliced p l t := by
  refine hrun.invariant (G := fun m ↦ m.act.Whole ∧ ¬Scanning 0 m.dst) ?_ ?_ h
  · intro u a v hu hstep hG
    exact (hu.move hstep hG.1).resolve_right fun hback ↦ hG.2 ⟨_, _, hback.1⟩
  · intro m hm
    exact ⟨hwhole m hm, haway m hm⟩

end Sliced

/-! ## From a dispatch to the return -/

/-- A run from boot in which `d` dispatches `p` and `r` is the first move after it that brings the
CPU back into the scheduler. -/
structure Slice (p : Slot) (past mid : List (Move (Kernel 1) (Act 1)))
    (d r : Move (Kernel 1) (Act 1)) : Prop where
  run : Run step (boot 1) (past ++ d :: mid ++ [r]) r.dst
  whole : ∀ m ∈ past ++ d :: mid ++ [r], m.act.Whole
  dispatch : Dispatches d p
  away : ∀ m ∈ mid, ¬Scanning 0 m.dst
  back : Scanning 0 r.dst

namespace Slice

variable {past mid : List (Move (Kernel 1) (Act 1))} {d r : Move (Kernel 1) (Act 1)}

/-- The run up to the dispatch, the dispatch, the run of the process and its return. -/
theorem parts (h : Slice p past mid d r) :
    ReachableWhole d.src ∧ step d.act d.src = some d.dst ∧ Run step d.dst mid r.src ∧
      step r.act r.src = some r.dst := by
  obtain ⟨hrun, hlast, -⟩ := h.run.snoc_inv
  obtain ⟨hpast, hfirst, hmid⟩ := hrun.split_at
  refine ⟨⟨_, past, rfl, hpast, fun m hm ↦ h.whole m ?_⟩, hfirst, hmid, hlast⟩
  rw [List.append_assoc]
  exact List.mem_append_left _ hm

/-- With a tick of the slice left, the dispatch leaves the loop pointer at the process. -/
theorem sliced (h : Slice p past mid d r)
    (htick : (d.dst.proc p).timeticks (d.src.proc p).level % mlpqTimeticks (d.src.proc p).level
      ≠ 0) : Sliced p (d.src.proc p).level d.dst := by
  obtain ⟨hsrc, hfirst, -, -⟩ := h.parts
  obtain ⟨c, ii, k, -, hc, hit, hdst⟩ := dispatches_inv hfirst h.dispatch
  obtain rfl : c = 0 := Subsingleton.elim c 0
  obtain ⟨-, hlevel, -, -⟩ := iterate_dispatch hit
  have hp : d.dst.proc p = (d.src.proc p).charged := by
    rw [hdst, dispatch_proc, Function.update_self]
  have hleft : toInt32 ((d.src.proc p).timeticks (d.src.proc p).level + 1)
      % mlpqTimeticks (d.src.proc p).level ≠ 0 := by
    rwa [hp, charged_ticks] at htick
  constructor
  · exact hsrc.snoc hfirst (h.whole d (by simp))
  · rw [hdst, dispatch_cpu_eq, Function.update_self, if_neg hleft, hlevel]
  · rw [hp, Proc.charged]
    exact if_neg fun hused ↦ hleft hused.1

/-- The return brings the loop to the table entry of `p`, whose level has not changed. -/
theorem back_at (h : Slice p past mid d r)
    (htick : (d.dst.proc p).timeticks (d.src.proc p).level % mlpqTimeticks (d.src.proc p).level
      ≠ 0) : ReachableWhole r.dst ∧ r.dst.cpu 0 = .scan (d.src.proc p).level p ∧
      (r.dst.proc p).level = (d.src.proc p).level := by
  obtain ⟨-, -, hmid, hlast⟩ := h.parts
  have hsrc := (h.sliced htick).run hmid (fun m hm ↦ h.whole m (by simp [hm])) h.away
  have hwhole := h.whole r (by simp)
  refine ⟨hsrc.reach.snoc hlast hwhole, ?_⟩
  refine (hsrc.move hlast hwhole).resolve_left fun hstay ↦ ?_
  obtain ⟨_, _, hscan⟩ := h.back
  rw [hstay.cpu] at hscan
  cases hscan

end Slice

/-- **Slice continuity on one CPU.** In every run in which a fork publishes its child in one step:
if `p` is dispatched at level `L`, its ticks at `L` are then not a multiple of the slice, and `p`
comes back to the scheduler RUNNABLE while no process of a smaller level is RUNNABLE, then the
scheduler dispatches `p` next: there is a next move, and whatever it is, it dispatches `p`. -/
theorem slice_continues (p : Slot) (past mid : List (Move (Kernel 1) (Act 1)))
    (d r : Move (Kernel 1) (Act 1)) (h : Slice p past mid d r)
    (htick : (d.dst.proc p).timeticks (d.src.proc p).level % mlpqTimeticks (d.src.proc p).level ≠ 0)
    (hrun : (r.dst.proc p).state = .runnable)
    (hlow : ∀ q, (r.dst.proc q).state = .runnable → (d.src.proc p).level ≤ (r.dst.proc q).level) :
    (∃ a t, step a r.dst = some t) ∧
      ∀ a t, step a r.dst = some t → Dispatches ⟨r.dst, a, t⟩ p := by
  obtain ⟨hreach, hc, hlevel⟩ := h.back_at htick
  have htop := highestlevel_of_lowest hreach h.back hrun fun q hq ↦ hlevel.symm ▸ hlow q hq
  have hlt := ((Shape.of_reachable hreach.reachable).level_mem p).2
  have hit : iterate r.dst.proc r.dst.ninlevel (d.src.proc p).level p = .dispatch p := by
    rw [iterate, ← hlevel, if_pos hlt, dif_pos p.2, if_neg (not_not.mpr hrun),
      if_neg (not_not.mpr htop.symm), if_neg (not_not.mpr rfl)]
  have hnext := scan_step hc
  refine ⟨⟨_, _, hnext⟩, fun a t hstep ↦ ?_⟩
  obtain rfl := scan_of_scanning (.of_reachable hreach.reachable) h.back hstep
  obtain rfl := Option.some.inj (hnext.symm.trans hstep)
  refine ⟨hrun, ?_⟩
  change ((schedulerStep 0 _ _ r.dst).proc p).state = .running
  rw [schedulerStep_eq, hit, dispatch_proc, Function.update_self]
  rfl

/-- The first process forks and is preempted; its child waits at the same level. -/
def forkInSlice : List (Act 1) := [.resume 0, .allocproc 0, .fork 0, .timer 0]

theorem forkInSlice_replay : ((step (.acquire 0) (boot 1)).bind fun s ↦
    (step (.scan 0) s).bind fun u ↦
      (replayIn step (fun v ↦ v.cpu 0 = .running initproc 0 initproc) forkInSlice u).bind fun v ↦
        (step (.yield 0) v).map fun t ↦
          ([(s.proc initproc).state, (u.proc initproc).state, (t.proc initproc).state,
            (t.proc firstChild).state], t.cpu 0, (u.proc initproc).timeticks 0,
            [decide (AllAtTop s), decide (AllAtTop t)]))
    = some ([.runnable, .running, .runnable, .runnable], .scan 0 initproc, 1, [true, true]) := by
  decide +kernel

/-- Preempted in its slice, the first process is dispatched again, and not its child. -/
theorem slice_continues_forkInSlice : ∃ t : Kernel 1, (t.proc firstChild).state = .runnable ∧
    ∀ a u, step a t = some u → Dispatches ⟨t, a, u⟩ initproc := by
  obtain ⟨s, hs, hrest⟩ := Option.bind_eq_some_iff.mp forkInSlice_replay
  obtain ⟨u, hu, hrest⟩ := Option.bind_eq_some_iff.mp hrest
  obtain ⟨v, hv, hrest⟩ := Option.bind_eq_some_iff.mp hrest
  obtain ⟨t, ht, hval⟩ := Option.map_eq_some_iff.mp hrest
  obtain ⟨⟨hs₀, hu₀, ht₀, ht₁⟩, hcpu, htick, htop_s, htop_t⟩ :
      ((s.proc initproc).state = .runnable ∧ (u.proc initproc).state = .running ∧
        (t.proc initproc).state = .runnable ∧ (t.proc firstChild).state = .runnable) ∧
        t.cpu 0 = .scan 0 initproc ∧ (u.proc initproc).timeticks 0 = 1 ∧ AllAtTop s ∧
          AllAtTop t := by
    simpa using hval
  obtain ⟨mid, hmid, hact, hok⟩ := exists_run_of_replayIn hv
  have hslice : Slice initproc [⟨boot 1, .acquire 0, s⟩] mid ⟨s, .scan 0, u⟩
      ⟨v, .yield 0, t⟩ := by
    refine ⟨?_, fun m hm ↦ ?_, ⟨hs₀, hu₀⟩, fun m hm ↦ ?_, ⟨_, _, hcpu⟩⟩
    · exact ((hmid.cons hu).cons hs).snoc ht
    · have hmem : m.act ∈ [.acquire 0, .scan 0] ++ forkInSlice ++ [.yield 0] := by
        rw [← hact]
        simpa using List.mem_map_of_mem (f := Move.act) hm
      have hwhole : ∀ a ∈ ([.acquire 0, .scan 0] ++ forkInSlice ++ [.yield 0] : List (Act 1)),
          a.Whole := by
        simp [forkInSlice, Act.Whole]
      exact hwhole _ hmem
    · rintro ⟨_, _, hscan⟩
      have hrunning : m.dst.cpu 0 = .running initproc 0 initproc := by simpa using hok m hm
      rw [hrunning] at hscan
      cases hscan
  have hleft : (u.proc initproc).timeticks (s.proc initproc).level
      % mlpqTimeticks (s.proc initproc).level ≠ 0 := by
    rw [htop_s initproc, htick]
    decide
  refine ⟨t, ht₁, (slice_continues initproc _ mid _ _ hslice hleft ht₀ fun q _ ↦ ?_).2⟩
  exact (htop_s initproc).trans_le (htop_t q).ge

end CS537.Mlfq
