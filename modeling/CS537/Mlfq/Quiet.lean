import CS537.Mlfq.Shape

/-!
# Moves that neither dispatch, nor create, nor boost

Most moves leave the level and the ticks of every process and the snapshot of the starvation check
alone, start nobody and allocate no slot. The exceptions are the dispatch in `scheduler`,
`allocproc`, `check_starve_and_boost`, and the publication of a child by `fork`, which is an
exception only as to where it leaves the parent.
-/

namespace CS537.Mlfq

open Function Wrapping

variable {ncpu : ℕ} {s t u : Kernel ncpu}

structure QuietSlot (p p' : Proc) : Prop where
  level : p'.level = p.level
  timeticks : p'.timeticks = p.timeticks
  running : p'.state = .running → p.state = .running
  embryo : p'.state = .embryo → p.state = .embryo
  between : p'.context.pos.Between → p.context.pos.Between

structure Quiet (s t : Kernel ncpu) : Prop where
  slot : ∀ r, QuietSlot (s.proc r) (t.proc r)
  lastLevel : t.lastLevel = s.lastLevel
  lastTicks : t.lastTicks = s.lastTicks

theorem QuietSlot.refl (p : Proc) : QuietSlot p p := ⟨rfl, rfl, id, id, id⟩

theorem QuietSlot.trans {p p' p'' : Proc} (h : QuietSlot p p') (h' : QuietSlot p' p'') :
    QuietSlot p p'' :=
  ⟨h'.level.trans h.level, h'.timeticks.trans h.timeticks, h.running ∘ h'.running,
    h.embryo ∘ h'.embryo, h.between ∘ h'.between⟩

theorem Quiet.refl (s : Kernel ncpu) : Quiet s s := ⟨fun _ ↦ .refl _, rfl, rfl⟩

theorem Quiet.trans (h : Quiet s t) (h' : Quiet t u) : Quiet s u :=
  ⟨fun r ↦ (h.slot r).trans (h'.slot r), h'.lastLevel.trans h.lastLevel,
    h'.lastTicks.trans h.lastTicks⟩

/-- The counters, the clocks, the lock and the CPUs play no part. -/
theorem Quiet.of_eq (h : Quiet s t) (hp : u.proc = t.proc) (hl : u.lastLevel = t.lastLevel)
    (ht : u.lastTicks = t.lastTicks) : Quiet s u :=
  ⟨fun r ↦ hp ▸ h.slot r, hl.trans h.lastLevel, ht.trans h.lastTicks⟩

theorem Quiet.addLevel (h : Quiet s t) (l d : ℤ) : Quiet s (t.addLevel l d) := h.of_eq rfl rfl rfl

theorem Quiet.setLevel (h : Quiet s t) (l v : ℤ) : Quiet s (t.setLevel l v) := h.of_eq rfl rfl rfl

theorem Quiet.setClock (h : Quiet s t) (n : ℕ) : Quiet s (t.setClock n) := h.of_eq rfl rfl rfl

theorem Quiet.setLock (h : Quiet s t) (x : Option (Fin ncpu)) : Quiet s (t.setLock x) :=
  h.of_eq rfl rfl rfl

theorem Quiet.setCpu (h : Quiet s t) (c : Fin ncpu) (x : Cpu) : Quiet s (t.setCpu c x) :=
  h.of_eq rfl rfl rfl

theorem Quiet.setProc (h : Quiet s t) {q : Slot} {p : Proc} (hp : QuietSlot (t.proc q) p) :
    Quiet s (t.setProc q p) := by
  refine h.trans ⟨fun r ↦ ?_, rfl, rfl⟩
  rcases eq_or_ne r q with rfl | hr
  · rwa [setProc_proc, update_self]
  · rw [setProc_proc, update_of_ne hr]
    exact .refl _

theorem Quiet.sched (h : Quiet s t) (c : Fin ncpu) : Quiet s (sched c t) := by
  rw [Mlfq.sched]
  split
  · exact h.of_eq rfl rfl rfl
  · exact h

/-! ## The quiet sections -/

section Sections

variable {c : Fin ncpu} {q : Slot}

theorem Quiet.setTrap (h : Quiet s t) (q : Slot) (x : TrapPos) : Quiet s (t.setTrap q x) :=
  h.setProc ⟨rfl, rfl, id, id, id⟩

theorem Quiet.setChan (h : Quiet s t) (q : Slot) (x : Option Chan) : Quiet s (t.setChan q x) :=
  h.setProc ⟨rfl, rfl, id, id, id⟩

theorem Quiet.setPos (h : Quiet s t) (q : Slot) {x : Pos} (hx : ¬x.Between) :
    Quiet s (t.setPos q x) :=
  h.setProc ⟨rfl, rfl, id, id, fun hb ↦ absurd hb hx⟩

theorem Quiet.wakeup1 (h : Quiet s t) (chan : Chan) : Quiet s (wakeup1 chan t) := by
  refine wakeup1_rec chan h fun u q hu ↦ ?_
  rw [wakeOne]
  split
  · refine Quiet.addLevel (Quiet.setProc hu ?_) _ _
    exact ⟨rfl, rfl, by simp, by simp, id⟩
  · exact hu

theorem Quiet.kill (h : Quiet s t) (pid : ℤ) : Quiet s (kill pid t) := by
  rw [Mlfq.kill]
  split
  · exact h
  · simp only
    split
    · refine Quiet.addLevel (Quiet.setProc h ?_) _ _
      exact ⟨rfl, rfl, by simp, by simp, id⟩
    · exact h.setProc ⟨rfl, rfl, id, id, id⟩

theorem Quiet.sleepAs (h : Quiet s t) {x : Pos} (hx : ¬x.Between) (chan : Chan) :
    Quiet s (sleepAs x chan c q t) := by
  rw [Mlfq.sleepAs]
  refine Quiet.sched (Quiet.addLevel (Quiet.setProc h ?_) _ _) c
  exact ⟨rfl, rfl, by simp, by simp, fun hb ↦ absurd hb hx⟩

theorem Quiet.yield (h : Quiet s t) : Quiet s (yield c q t) := by
  rw [Mlfq.yield]
  refine Quiet.sched (Quiet.setProc h ?_) c
  exact ⟨rfl, rfl, by simp, by simp, id⟩

theorem Quiet.reparentOne (h : Quiet s t) (p : Slot) : Quiet s (reparentOne q t p) := by
  rw [Mlfq.reparentOne]
  split
  · have hset : Quiet s (t.setProc p { t.proc p with parent := some initproc }) :=
      h.setProc ⟨rfl, rfl, id, id, id⟩
    simp only
    split
    · exact hset.wakeup1 _
    · exact hset
  · exact h

theorem Quiet.becomeZombie (h : Quiet s t) : Quiet s (becomeZombie c q t) := by
  rw [Mlfq.becomeZombie]
  refine Quiet.sched (Quiet.addLevel (Quiet.setProc h ?_) _ _) c
  exact ⟨rfl, rfl, by simp, by simp, id⟩

theorem Quiet.exit (h : Quiet s t) : Quiet s (exit c q t) := by
  rw [Mlfq.exit]
  exact (exit_rec q h (fun _ chan hu ↦ hu.wakeup1 chan) fun _ p hu ↦ hu.reparentOne p).becomeZombie

theorem Quiet.wait (h : Quiet s t) : Quiet s (wait c q t) := by
  rw [Mlfq.wait]
  split
  · refine Quiet.setLock (Quiet.setProc h ?_) none
    exact ⟨rfl, rfl, by simp, by simp, id⟩
  · exact h.setLock none
  · exact h.sleepAs (by simp) _

theorem Quiet.resume (h : Quiet s t) : Quiet s (resume c q t) := by
  rw [Mlfq.resume]
  split
  · exact (h.setPos q (by simp)).setLock none
  · exact ((h.setChan q none).setPos q (by simp)).setLock none
  · exact ((h.setChan q none).setPos q (by simp)).wait
  · exact (h.setTrap q .none).setLock none

theorem Quiet.timer (h : Quiet s t) : Quiet s (timer q t) := by
  rw [Mlfq.timer]
  split
  · exact (h.setClock _).setTrap q .boost
  · exact (h.setClock _).setTrap q .yield

theorem Quiet.forkFail (h : Quiet s t) (np : Slot) : Quiet s (forkFail q np t) := by
  rw [Mlfq.forkFail]
  refine Quiet.setPos (Quiet.setProc h ?_) q (by simp)
  exact ⟨rfl, rfl, by simp, by simp, id⟩

theorem Quiet.forkCount (h : Quiet s t) (q : Slot) : Quiet s (forkCount q t) := by
  rw [Mlfq.forkCount]
  exact (h.addLevel 0 1).setPos q (by simp)

/-- The load finds the process between the two statements already. -/
theorem Quiet.forkLoad {np : Slot} (hq : (s.proc q).context.pos = .count np) :
    Quiet s (forkLoad q np s) := by
  rw [Mlfq.forkLoad]
  refine Quiet.setProc (Quiet.refl s) ⟨rfl, rfl, id, id, fun _ ↦ ?_⟩
  rw [hq]
  exact between_count np

theorem Quiet.forkStore (h : Quiet s t) (q : Slot) (v : ℤ) : Quiet s (forkStore q v t) := by
  rw [Mlfq.forkStore]
  exact (h.setLevel 0 v).setPos q (by simp)

/-- `fork` in one step leaves no trace of the position in between. -/
theorem Quiet.fork (h : Quiet s t) (q np : Slot) :
    Quiet s (Mlfq.forkCount q (forkPublish q np t)) := by
  have hpublish : Mlfq.forkCount q (forkPublish q np t) = ((t.setProc np
      { t.proc np with parent := some q, state := .runnable }).addLevel 0 1).setPos q .user := by
    rw [Mlfq.forkCount, forkPublish, Kernel.setPos, Kernel.setPos, Kernel.setPos]
    simp [Kernel.setProc, Kernel.addLevel]
  rw [hpublish]
  refine Quiet.setPos (Quiet.addLevel (Quiet.setProc h ?_) 0 1) q (by simp)
  exact ⟨rfl, rfl, by simp, by simp, id⟩

end Sections

/-! ## The loud sections -/

/-- The record of a process after it has been dispatched. -/
def Proc.charged (p : Proc) : Proc :=
  { p with
    state := .running
    timeticks := update p.timeticks p.level (toInt32 (p.timeticks p.level + 1))
    level := if toInt32 (p.timeticks p.level + 1) % mlpqTimeticks p.level = 0 ∧
        p.level ≠ nlayer - 1
      then p.level + 1 else p.level }

theorem dispatch_proc (c : Fin ncpu) (q : Slot) (ii : ℤ) :
    (dispatch c q ii s).proc = update s.proc q (s.proc q).charged := by
  rw [dispatch, Cumulative.dispatch, Proc.charged]
  simp only
  split
  · next htt => simp [htt]
  · next htt =>
    rw [not_not] at htt
    split
    · next hlevel => simp [htt, hlevel]
    · next hlevel => simp [htt, hlevel]

theorem checkStarveAndBoost_frame (r : Slot) :
    ((checkStarveAndBoost s).proc r).state = (s.proc r).state ∧
      ((checkStarveAndBoost s).proc r).context = (s.proc r).context := by
  refine checkStarveAndBoost_rec (P := fun t ↦ (t.proc r).state = (s.proc r).state ∧
    (t.proc r).context = (s.proc r).context) ⟨rfl, rfl⟩ fun t i ht ↦ ?_
  rw [← ht.1, ← ht.2, boostOne_eq]
  split
  · exact ⟨rfl, rfl⟩
  · rw [takeSnapshot]
    split
    · rcases eq_or_ne r i with rfl | hr
      · simp [promote, Cumulative.promote]
      · simp [promote, Cumulative.promote, hr]
    · exact ⟨rfl, rfl⟩

/-- The tables the loud moves leave, one slot at a time. -/
theorem setPos_state (q r : Slot) (x : Pos) :
    ((s.setPos q x).proc r).state = (s.proc r).state := by
  rcases eq_or_ne r q with rfl | hr
  · simp [Kernel.setPos]
  · simp [Kernel.setPos, hr]

theorem setTrap_state (q r : Slot) (x : TrapPos) :
    ((s.setTrap q x).proc r).state = (s.proc r).state := by
  rcases eq_or_ne r q with rfl | hr
  · simp [Kernel.setTrap]
  · simp [Kernel.setTrap, hr]

/-- What a move that is not quiet does. -/
inductive Loud (s : Kernel ncpu) : Act ncpu → Kernel ncpu → Prop
  | dispatch {c : Fin ncpu} {ii : ℤ} {p : ℕ} {q : Slot} (hc : s.cpu c = .scan ii p)
    (hq : iterate s.proc s.ninlevel ii p = .dispatch q) : Loud s (.scan c) (dispatch c q ii s)
  | create {c : Fin ncpu} {q np : Slot} (hq : s.caller c = some q)
    (hnp : slots.find? (fun p ↦ (s.proc p).state = .unused) = some np) :
    Loud s (.allocproc c)
      ((s.setProc np ((s.proc np).embryo s.nextpid)).bumpPid.setPos q (.copy np))
  | boost {c : Fin ncpu} {q : Slot} (hl : s.lock = none) :
    Loud s (.boost c) ((checkStarveAndBoost s).setTrap q .yield)
  | publish {c : Fin ncpu} {q np : Slot} (hq : s.child c = some (q, np)) :
    Loud s (.forkPublish c) (forkPublish q np s)

theorem quiet_or_loud {a : Act ncpu} (hstep : step a s = some t) : Quiet s t ∨ Loud s a t := by
  have hrefl := Quiet.refl s
  cases trans_of_step hstep with
  | acquire => exact .inl ((hrefl.setCpu _ _).setLock _)
  | scan hc =>
    rw [schedulerStep_eq]
    split
    · exact .inl (hrefl.setCpu _ _)
    · next q hq => exact .inr (.dispatch hc hq)
    · exact .inl ((hrefl.setCpu _ _).setLock none)
  | resume => exact .inl hrefl.resume
  | timer => exact .inl hrefl.timer
  | boost _ _ hl => exact .inr (.boost hl)
  | yield => exact .inl hrefl.yield
  | sleep => exact .inl (hrefl.sleepAs (by simp) _)
  | wakeup => exact .inl (hrefl.wakeup1 _)
  | exit => exact .inl hrefl.exit
  | wait => exact .inl hrefl.wait
  | kill => exact .inl (hrefl.kill _)
  | fault => exact .inl (hrefl.setProc ⟨rfl, rfl, id, id, id⟩)
  | allocproc hq =>
    rw [allocproc]
    split
    · exact .inl hrefl
    · next np hnp => exact .inr (.create hq hnp)
  | forkFail => exact .inl (hrefl.forkFail _)
  | forkPublish hq => exact .inr (.publish hq)
  | forkLoad _ hf => exact .inl (.forkLoad hf)
  | forkStore | forkTorn => exact .inl (hrefl.forkStore _ _)
  | fork => exact .inl (hrefl.fork _ _)

end CS537.Mlfq
