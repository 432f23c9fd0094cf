import CS537.Lib.Sweep
import CS537.Mlfq.Quiet

/-!
# What a move does to the process in a slot

The fields that say which process a slot holds and how it stands to the others: state, pid, parent
and the killed flag. A move leaves all but the state alone, except for the few that create, publish,
orphan, kill or reap a process.
-/

namespace CS537.Mlfq

open Function

variable {ncpu : ℕ} {s t : Kernel ncpu} {a : Act ncpu} {i q : Slot} {c : Fin ncpu}

/-- The changes of state of one process. -/
inductive Edge : ProcState → ProcState → Prop
  | stay (x : ProcState) : Edge x x
  | wake : Edge .sleeping .runnable
  | dispatch : Edge .runnable .running
  | yield : Edge .running .runnable
  | sleep : Edge .running .sleeping
  | fail : Edge .embryo .unused

theorem Edge.of_unused {x : ProcState} (h : Edge .unused x) : x = .unused := by
  cases h
  rfl

/-- Pid, parent and killed flag are the same. -/
structure SameId (p p' : Proc) : Prop where
  pid : p'.pid = p.pid
  parent : p'.parent = p.parent
  killed : p'.killed = p.killed

theorem SameId.refl (p : Proc) : SameId p p := ⟨rfl, rfl, rfl⟩

/-- The process in `q`, on CPU `c`, is in a round of the loop in `wait`. -/
def InWaitLoop (c : Fin ncpu) (q : Slot) (s : Kernel ncpu) : Act ncpu → Prop
  | .wait c' => c' = c ∧ s.caller c = some q
  | .resume c' => c' = c ∧ (∃ ii p, s.cpu c = .running q ii p) ∧ (s.proc q).context.pos = .wait
  | _ => False

theorem Shape.inWaitLoop_running (h : Shape s) (ha : InWaitLoop c q s a) :
    (s.proc q).state = .running := by
  cases a with
  | wait => exact h.caller_running ha.2
  | resume =>
    obtain ⟨-, ⟨_, _, hc⟩, -⟩ := ha
    exact h.running hc
  | _ => exact absurd ha id

/-- What a move does to the process in a slot. -/
inductive LifeMove (i : Slot) (s : Kernel ncpu) (a : Act ncpu) (t : Kernel ncpu) : Prop
  | same (hstate : Edge (s.proc i).state (t.proc i).state) (hid : SameId (s.proc i) (t.proc i))
  | create {c : Fin ncpu} (ha : a = .allocproc c) (hsrc : (s.proc i).state = .unused)
    (hdst : (t.proc i).state = .embryo) (hparent : (t.proc i).parent = (s.proc i).parent)
    (hkilled : (t.proc i).killed = (s.proc i).killed)
  | publish {c : Fin ncpu} {q : Slot} (ha : a = .forkPublish c ∨ a = .fork c)
    (hchild : s.child c = some (q, i)) (hdst : (t.proc i).state = .runnable)
    (hpid : (t.proc i).pid = (s.proc i).pid) (hparent : (t.proc i).parent = some q)
    (hkilled : (t.proc i).killed = (s.proc i).killed)
  | exit {c : Fin ncpu} (ha : a = .exit c) (hq : s.caller c = some i)
    (hdst : (t.proc i).state = .zombie) (hpid : (t.proc i).pid = (s.proc i).pid)
    (hparent : (t.proc i).parent
      = if (s.proc i).parent = some i then some initproc else (s.proc i).parent)
    (hkilled : (t.proc i).killed = (s.proc i).killed)
  | orphan {c : Fin ncpu} {q : Slot} (ha : a = .exit c) (hq : s.caller c = some q) (hne : i ≠ q)
    (hsrc : (s.proc i).parent = some q) (hstate : Edge (s.proc i).state (t.proc i).state)
    (hpid : (t.proc i).pid = (s.proc i).pid) (hparent : (t.proc i).parent = some initproc)
    (hkilled : (t.proc i).killed = (s.proc i).killed)
  | kill {c : Fin ncpu} {pid : ℤ} (ha : a = .kill c pid) (hmatch : (s.proc i).pid = pid)
    (hstate : Edge (s.proc i).state (t.proc i).state) (hpid : (t.proc i).pid = (s.proc i).pid)
    (hparent : (t.proc i).parent = (s.proc i).parent) (hkilled : (t.proc i).killed = true)
  | fault {c : Fin ncpu} (ha : a = .fault c) (hq : s.caller c = some i)
    (hstate : (t.proc i).state = (s.proc i).state) (hpid : (t.proc i).pid = (s.proc i).pid)
    (hparent : (t.proc i).parent = (s.proc i).parent) (hkilled : (t.proc i).killed = true)
  | reap {c : Fin ncpu} {q : Slot} (ha : InWaitLoop c q s a) (hsrc : (s.proc i).state = .zombie)
    (hparent : (s.proc i).parent = some q) (hdst : (t.proc i).state = .unused)
    (hpid : (t.proc i).pid = 0) (hfree : (t.proc i).parent = none)
    (hkilled : (t.proc i).killed = false)

theorem LifeMove.of_eq (h : t.proc i = s.proc i) : LifeMove i s a t :=
  .same (h ▸ .stay _) (h ▸ .refl _)

/-! ## Waking -/

/-- The record of a process after `wakeup1(chan)`. -/
def Proc.wake (chan : Chan) (p : Proc) : Proc :=
  if p.state = .sleeping ∧ p.chan = some chan then { p with state := .runnable } else p

theorem Proc.wake_edge (chan : Chan) (p : Proc) : Edge p.state (p.wake chan).state := by
  rw [wake]
  split
  · next h =>
    rw [h.1]
    exact .wake
  · exact .stay _

theorem Proc.wake_sameId (chan : Chan) (p : Proc) : SameId p (p.wake chan) := by
  rw [wake]
  split
  · exact ⟨rfl, rfl, rfl⟩
  · exact .refl _

theorem Proc.not_asleep_wake (chan : Chan) (p : Proc) :
    ¬((p.wake chan).state = .sleeping ∧ (p.wake chan).chan = some chan) := by
  rw [wake]
  split
  · rintro ⟨hstate, -⟩
    cases hstate
  · next h => exact h

theorem wakeOne_proc_self (chan : Chan) (s : Kernel ncpu) (q : Slot) :
    (wakeOne chan s q).proc q = (s.proc q).wake chan := by
  rw [wakeOne, Proc.wake]
  split
  · rw [addLevel_proc, setProc_proc, update_self]
  · rfl

theorem wakeOne_proc_of_ne (chan : Chan) (s : Kernel ncpu) (q r : Slot) (h : r ≠ q) :
    (wakeOne chan s q).proc r = s.proc r := by
  rw [wakeOne]
  split
  · rw [addLevel_proc, setProc_proc, update_of_ne h]
  · rfl

theorem wakeup1_proc (chan : Chan) (s : Kernel ncpu) (r : Slot) :
    (wakeup1 chan s).proc r = (s.proc r).wake chan :=
  Sweep.view_foldl (V := fun r (s : Kernel ncpu) ↦ s.proc r) (fun _ ↦ Proc.wake chan)
    (wakeOne_proc_self chan) (wakeOne_proc_of_ne chan) nodup_slots (mem_slots r) s

/-! ## `exit` -/

/-- What a loop that only wakes and reparents leaves of a record. -/
structure Kept (p p' : Proc) : Prop where
  pid : p'.pid = p.pid
  killed : p'.killed = p.killed
  chan : p'.chan = p.chan
  context : p'.context = p.context
  state : p'.state = p.state ∨ p.state = .sleeping ∧ p'.state = .runnable

theorem Kept.refl (p : Proc) : Kept p p := ⟨rfl, rfl, rfl, rfl, .inl rfl⟩

theorem Kept.edge {p p' : Proc} (h : Kept p p') : Edge p.state p'.state := by
  rcases h.state with he | ⟨hp, hp'⟩
  · rw [he]
    exact .stay _
  · rw [hp, hp']
    exact .wake

theorem Kept.wake {p p' : Proc} (h : Kept p p') (chan : Chan) : Kept p (p'.wake chan) := by
  rw [Proc.wake]
  split
  · next hsleep =>
    refine ⟨h.pid, h.killed, h.chan, h.context, ?_⟩
    rcases h.state with he | ⟨-, hrun⟩
    · exact .inr ⟨he ▸ hsleep.1, rfl⟩
    · rw [hrun] at hsleep
      exact absurd hsleep.1 (by simp)
  · exact h

theorem Kept.trans {p p' p'' : Proc} (h : Kept p p') (h' : Kept p' p'') : Kept p p'' := by
  refine ⟨h'.pid.trans h.pid, h'.killed.trans h.killed, h'.chan.trans h.chan,
    h'.context.trans h.context, ?_⟩
  rcases h.state with he | ⟨hp, hp'⟩
  · rw [← he]
    exact h'.state
  · refine .inr ⟨hp, ?_⟩
    rcases h'.state with he | ⟨hsleep, -⟩
    · rw [he, hp']
    · rw [hp'] at hsleep
      cases hsleep

theorem Kept.setParent {p p' : Proc} (h : Kept p p') (x : Option Slot) :
    Kept p { p' with parent := x } :=
  ⟨h.pid, h.killed, h.chan, h.context, h.state⟩

theorem reparentOne_parent (q : Slot) (s : Kernel ncpu) (p : Slot) :
    ((reparentOne q s p).proc p).parent
      = if (s.proc p).parent = some q then some initproc else (s.proc p).parent := by
  rw [reparentOne]
  split
  · simp only
    split
    · rw [wakeup1_proc, (Proc.wake_sameId _ _).parent, setProc_proc, update_self]
    · rw [setProc_proc, update_self]
  · rfl

theorem reparentOne_parent_of_ne (q : Slot) (s : Kernel ncpu) (p r : Slot) (h : r ≠ p) :
    ((reparentOne q s p).proc r).parent = (s.proc r).parent := by
  rw [reparentOne]
  split
  · simp only
    split
    · rw [wakeup1_proc, (Proc.wake_sameId _ _).parent, setProc_proc, update_of_ne h]
    · rw [setProc_proc, update_of_ne h]
  · rfl

theorem wakeParent_of_parent (h : (s.proc q).parent = some i) :
    wakeParent q s = wakeup1 (.proc i) s := by
  rw [wakeParent, h]

theorem wakeParent_parent (q : Slot) (s : Kernel ncpu) (r : Slot) :
    ((wakeParent q s).proc r).parent = (s.proc r).parent := by
  rw [wakeParent]
  split
  · rw [wakeup1_proc, (Proc.wake_sameId _ _).parent]
  · rfl

/-- Before the process itself becomes a zombie: its children have been handed to init. -/
theorem abandoned_parent (q : Slot) (s : Kernel ncpu) (r : Slot) :
    ((abandonChildren q (wakeParent q s)).proc r).parent
      = if (s.proc r).parent = some q then some initproc else (s.proc r).parent := by
  rw [← wakeParent_parent q s r]
  exact Sweep.view_foldl (V := fun r (s : Kernel ncpu) ↦ (s.proc r).parent)
    (fun _ x ↦ if x = some q then some initproc else x) (reparentOne_parent q)
    (reparentOne_parent_of_ne q) nodup_slots (mem_slots r) _

theorem wakeup1_kept (chan : Chan) (s : Kernel ncpu) (r : Slot) :
    Kept (s.proc r) ((wakeup1 chan s).proc r) := by
  rw [wakeup1_proc]
  exact (Kept.refl _).wake chan

theorem reparentOne_kept (q : Slot) (s : Kernel ncpu) (p r : Slot) :
    Kept (s.proc r) ((reparentOne q s p).proc r) := by
  have hset : Kept (s.proc r)
      ((s.setProc p { s.proc p with parent := some initproc }).proc r) := by
    rw [setProc_proc]
    rcases eq_or_ne r p with rfl | hr
    · rw [update_self]
      exact (Kept.refl _).setParent _
    · rw [update_of_ne hr]
      exact .refl _
  rw [reparentOne]
  split
  · simp only
    split
    · exact hset.trans (wakeup1_kept _ _ r)
    · exact hset
  · exact .refl _

theorem wakeParent_kept (q : Slot) (s : Kernel ncpu) (r : Slot) :
    Kept (s.proc r) ((wakeParent q s).proc r) := by
  rw [wakeParent]
  split
  · exact wakeup1_kept _ _ r
  · exact .refl _

theorem abandonChildren_kept (q : Slot) (s : Kernel ncpu) (r : Slot) :
    Kept (s.proc r) ((abandonChildren q s).proc r) := by
  rw [abandonChildren]
  exact List.foldlRecOn (motive := fun t : Kernel ncpu ↦ Kept (s.proc r) (t.proc r)) slots
    (reparentOne q) (.refl _) fun t ht p _ ↦ ht.trans (reparentOne_kept q t p r)

theorem abandoned_kept (q : Slot) (s : Kernel ncpu) (r : Slot) :
    Kept (s.proc r) ((abandonChildren q (wakeParent q s)).proc r) :=
  (wakeParent_kept q s r).trans (abandonChildren_kept q _ r)

theorem exit_proc (c : Fin ncpu) (q : Slot) (s : Kernel ncpu) :
    (exit c q s).proc = update (abandonChildren q (wakeParent q s)).proc q
      { (abandonChildren q (wakeParent q s)).proc q with state := .zombie } := by
  rw [exit, becomeZombie]
  exact sched_proc _ _

theorem exit_parent (c : Fin ncpu) (q : Slot) (s : Kernel ncpu) (r : Slot) :
    ((exit c q s).proc r).parent
      = if (s.proc r).parent = some q then some initproc else (s.proc r).parent := by
  rw [exit_proc, ← abandoned_parent q s r]
  rcases eq_or_ne r q with rfl | hne
  · rw [update_self]
  · rw [update_of_ne hne]

theorem lifeMove_exit (hq : s.caller c = some q) : LifeMove i s (.exit c) (exit c q s) := by
  have hkept := abandoned_kept q s i
  have hparent := exit_parent c q s i
  rcases eq_or_ne i q with rfl | hne
  · refine .exit rfl hq ?_ ?_ hparent ?_ <;> rw [exit_proc, update_self]
    exacts [hkept.pid, hkept.killed]
  · have hp : (exit c q s).proc i = (abandonChildren q (wakeParent q s)).proc i := by
      rw [exit_proc, update_of_ne hne]
    rw [← hp] at hkept
    by_cases hchild : (s.proc i).parent = some q
    · rw [if_pos hchild] at hparent
      exact .orphan rfl hq hne hchild hkept.edge hkept.pid hparent hkept.killed
    · rw [if_neg hchild] at hparent
      exact .same hkept.edge ⟨hkept.pid, hparent, hkept.killed⟩

/-! ## The other moves -/

/-- A move that at most changes the state of one process along an edge. -/
theorem LifeMove.of_setProc {p : Proc} (h : t.proc i = update s.proc q p i)
    (hstate : Edge (s.proc q).state p.state) (hid : SameId (s.proc q) p) : LifeMove i s a t := by
  rcases eq_or_ne i q with rfl | hne
  · rw [update_self] at h
    exact .same (h ▸ hstate) (h ▸ hid)
  · rw [update_of_ne hne] at h
    exact .of_eq h

theorem lifeMove_wait {u : Kernel ncpu} {p : Proc} (hu : u.proc = update s.proc q p)
    (hid : SameId (s.proc q) p) (hsrc : (s.proc q).state = .running) (hp : p.state = .running)
    (ha : InWaitLoop c q s a) : LifeMove i s a (wait c q u) := by
  have hstay : Edge (s.proc q).state p.state := by
    rw [hsrc, hp]
    exact .stay _
  rw [wait]
  split
  · next r pid hr =>
    obtain ⟨hparent, hzombie⟩ := waitScan_reap hr
    have hne : r ≠ q := by
      rintro rfl
      rw [hu, update_self, hp] at hzombie
      cases hzombie
    rw [hu, update_of_ne hne] at hparent hzombie
    rcases eq_or_ne i r with rfl | hir
    · refine .reap ha hzombie hparent ?_ ?_ ?_ ?_ <;>
        rw [setLock_proc, setProc_proc, update_self]
    · refine .of_setProc ?_ hstay hid
      rw [setLock_proc, setProc_proc, update_of_ne hir, hu]
  · exact .of_setProc (congrFun hu i) hstay hid
  · refine .of_setProc (q := q) (p := { p with
      chan := some (.proc q), state := .sleeping, context := { p.context with pos := .wait } })
      ?_ ?_ ⟨hid.pid, hid.parent, hid.killed⟩
    · rw [sleepAs, sched_proc, addLevel_proc, setProc_proc, hu, update_idem, update_self]
    · rw [hsrc]
      exact .sleep

theorem lifeMove_resume {ii : ℤ} {k : ℕ} (hc : s.cpu c = .running q ii k)
    (hrun : (s.proc q).state = .running) : LifeMove i s (.resume c) (resume c q s) := by
  have hback : ((s.setChan q none).setPos q .user).proc = update s.proc q { s.proc q with
      chan := none, context := { (s.proc q).context with pos := .user } } := by
    rw [Kernel.setPos, setProc_proc, Kernel.setChan, setProc_proc, update_idem, update_self]
  rw [resume]
  split
  · exact .of_setProc rfl (.stay _) ⟨rfl, rfl, rfl⟩
  · exact .of_setProc (congrFun hback i) (.stay _) ⟨rfl, rfl, rfl⟩
  · next hpos => exact lifeMove_wait hback ⟨rfl, rfl, rfl⟩ hrun hrun ⟨rfl, ⟨ii, k, hc⟩, hpos⟩
  · exact .of_setProc rfl (.stay _) ⟨rfl, rfl, rfl⟩

theorem lifeMove_kill (pid : ℤ) : LifeMove i s (.kill c pid) (kill pid s) := by
  rw [kill]
  split
  · exact .of_eq rfl
  · next r hr =>
    have hmatch : (s.proc r).pid = pid := by simpa using List.find?_some hr
    simp only
    split
    · next hsleep =>
      rcases eq_or_ne i r with rfl | hne
      · refine .kill rfl hmatch ?_ ?_ ?_ ?_ <;> rw [addLevel_proc, setProc_proc, update_self]
        rw [hsleep]
        exact .wake
      · refine .of_eq ?_
        rw [addLevel_proc, setProc_proc, update_of_ne hne]
    · rcases eq_or_ne i r with rfl | hne
      · refine .kill rfl hmatch ?_ ?_ ?_ ?_ <;> rw [setProc_proc, update_self]
        exact .stay _
      · refine .of_eq ?_
        rw [setProc_proc, update_of_ne hne]

theorem checkStarveAndBoost_id (s : Kernel ncpu) (r : Slot) :
    ((checkStarveAndBoost s).proc r).state = (s.proc r).state ∧
      SameId (s.proc r) ((checkStarveAndBoost s).proc r) := by
  refine checkStarveAndBoost_rec (P := fun t ↦ (t.proc r).state = (s.proc r).state ∧
    SameId (s.proc r) (t.proc r)) ⟨rfl, .refl _⟩ fun t i ht ↦ ?_
  rw [boostOne_eq]
  split
  · exact ht
  · rw [takeSnapshot]
    split
    · rcases eq_or_ne r i with rfl | hr
      · refine ⟨?_, ?_, ?_, ?_⟩ <;>
          simp only [promote, Cumulative.promote, addLevel_proc, setProc_proc, update_self]
        exacts [ht.1, ht.2.pid, ht.2.parent, ht.2.killed]
      · simpa [promote, Cumulative.promote, hr] using ht
    · exact ht

theorem lifeMove_schedulerStep {ii : ℤ} {k : ℕ} :
    LifeMove i s (.scan c) (schedulerStep c ii k s) := by
  rw [schedulerStep_eq]
  split
  · exact .of_eq rfl
  · next r hr =>
    refine .of_setProc (congrFun (dispatch_proc c r ii) i) ?_ ⟨rfl, rfl, rfl⟩
    rw [(iterate_dispatch hr).1]
    exact .dispatch
  · exact .of_eq rfl

/-- The other fields of the record play no part. -/
theorem LifeMove.of_agree {u : Kernel ncpu} (h : LifeMove i s a t)
    (hstate : (u.proc i).state = (t.proc i).state) (hid : SameId (t.proc i) (u.proc i)) :
    LifeMove i s a u := by
  obtain ⟨hpid, hparent, hkilled⟩ := hid
  cases h with
  | same he hid =>
    exact .same (hstate ▸ he) ⟨hpid.trans hid.pid, hparent.trans hid.parent,
      hkilled.trans hid.killed⟩
  | create ha hsrc hdst hpar hk =>
    exact .create ha hsrc (hstate.trans hdst) (hparent.trans hpar) (hkilled.trans hk)
  | publish ha hchild hdst hp hpar hk =>
    exact .publish ha hchild (hstate.trans hdst) (hpid.trans hp) (hparent.trans hpar)
      (hkilled.trans hk)
  | exit ha hq hdst hp hpar hk =>
    exact .exit ha hq (hstate.trans hdst) (hpid.trans hp) (hparent.trans hpar) (hkilled.trans hk)
  | orphan ha hq hne hsrc he hp hpar hk =>
    exact .orphan ha hq hne hsrc (hstate ▸ he) (hpid.trans hp) (hparent.trans hpar)
      (hkilled.trans hk)
  | kill ha hmatch he hp hpar hk =>
    exact .kill ha hmatch (hstate ▸ he) (hpid.trans hp) (hparent.trans hpar) (hkilled.trans hk)
  | fault ha hq he hp hpar hk =>
    exact .fault ha hq (hstate.trans he) (hpid.trans hp) (hparent.trans hpar) (hkilled.trans hk)
  | reap ha hsrc hpar hdst hp hfree hk =>
    exact .reap ha hsrc hpar (hstate.trans hdst) (hpid.trans hp) (hparent.trans hfree)
      (hkilled.trans hk)

theorem setPos_sameId (q r : Slot) (x : Pos) : SameId (s.proc r) ((s.setPos q x).proc r) := by
  rw [Kernel.setPos, setProc_proc]
  rcases eq_or_ne r q with rfl | hne
  · rw [update_self]
    exact ⟨rfl, rfl, rfl⟩
  · rw [update_of_ne hne]
    exact .refl _

theorem setTrap_sameId (q r : Slot) (x : TrapPos) :
    SameId (s.proc r) ((s.setTrap q x).proc r) := by
  rw [Kernel.setTrap, setProc_proc]
  rcases eq_or_ne r q with rfl | hne
  · rw [update_self]
    exact ⟨rfl, rfl, rfl⟩
  · rw [update_of_ne hne]
    exact .refl _

theorem LifeMove.setPos (h : LifeMove i s a t) (q : Slot) (x : Pos) :
    LifeMove i s a (t.setPos q x) :=
  h.of_agree (setPos_state q i x) (setPos_sameId q i x)

theorem LifeMove.setTrap (h : LifeMove i s a t) (q : Slot) (x : TrapPos) :
    LifeMove i s a (t.setTrap q x) :=
  h.of_agree (setTrap_state q i x) (setTrap_sameId q i x)

theorem lifeMove_allocproc (q : Slot) :
    LifeMove i s (.allocproc c) (allocproc q s) := by
  rw [allocproc]
  split
  · exact .of_eq rfl
  · next np hnp =>
    have hunused : (s.proc np).state = .unused := by simpa using List.find?_some hnp
    refine LifeMove.setPos ?_ q _
    rcases eq_or_ne i np with rfl | hne
    · refine .create rfl hunused ?_ ?_ ?_ <;>
        rw [bumpPid_proc, setProc_proc, update_self] <;> rfl
    · refine .of_eq ?_
      rw [bumpPid_proc, setProc_proc, update_of_ne hne]

theorem lifeMove_forkPublish (ha : a = .forkPublish c ∨ a = .fork c)
    (hq : s.child c = some (q, np)) : LifeMove i s a (forkPublish q np s) := by
  rw [forkPublish]
  refine LifeMove.setPos ?_ q _
  rcases eq_or_ne i np with rfl | hne
  · refine .publish ha hq ?_ ?_ ?_ ?_ <;> rw [setProc_proc, update_self]
  · refine .of_eq ?_
    rw [setProc_proc, update_of_ne hne]

/-- **What a move does to the process in a slot.** -/
theorem lifeMove (h : Shape s) (hstep : step a s = some t) (i : Slot) : LifeMove i s a t := by
  cases trans_of_step hstep with
  | acquire => exact .of_eq rfl
  | scan => exact lifeMove_schedulerStep
  | resume hc => exact lifeMove_resume hc (h.running hc)
  | timer =>
    rw [timer]
    split <;> exact .of_setProc rfl (.stay _) ⟨rfl, rfl, rfl⟩
  | boost =>
    obtain ⟨hstate, hid⟩ := checkStarveAndBoost_id s i
    exact LifeMove.setTrap (.same (hstate ▸ .stay _) hid) _ _
  | yield hq =>
    refine .of_setProc (congrFun (sched_proc _ _) i) ?_ ⟨rfl, rfl, rfl⟩
    rw [h.current_running hq]
    exact .yield
  | sleep hq =>
    refine .of_setProc (congrFun (sched_proc _ _) i) ?_ ⟨rfl, rfl, rfl⟩
    rw [h.caller_running hq]
    exact .sleep
  | wakeup =>
    refine .same ?_ ?_ <;> rw [wakeup1_proc]
    exacts [Proc.wake_edge _ _, Proc.wake_sameId _ _]
  | exit hq => exact lifeMove_exit hq
  | wait hq =>
    have hrun := h.caller_running hq
    exact lifeMove_wait (update_eq_self _ _).symm (.refl _) hrun hrun ⟨rfl, hq⟩
  | kill => exact lifeMove_kill _
  | @fault _ q hq =>
    rcases eq_or_ne i q with rfl | hne
    · refine .fault rfl hq ?_ ?_ ?_ ?_ <;> rw [setProc_proc, update_self]
    · refine .of_eq ?_
      rw [setProc_proc, update_of_ne hne]
  | allocproc => exact lifeMove_allocproc _
  | @forkFail _ q np hq =>
    rw [forkFail]
    refine LifeMove.setPos ?_ q .user
    refine .of_setProc (q := np) rfl ?_ ⟨rfl, rfl, rfl⟩
    rw [(h.copy_embryo (child_eq_some hq).2).1]
    exact .fail
  | forkPublish hq => exact lifeMove_forkPublish (.inl rfl) hq
  | @forkLoad _ q _ _ _ =>
    rw [forkLoad]
    exact LifeMove.setPos (.of_eq rfl) q _
  | @forkStore _ q _ _ _ _ | @forkTorn _ q _ _ _ _ _ =>
    rw [forkStore]
    refine LifeMove.setPos ?_ q .user
    exact .of_eq rfl
  | @fork _ q _ hq =>
    rw [forkCount]
    refine LifeMove.setPos ?_ q .user
    exact (lifeMove_forkPublish (.inr rfl) hq).of_agree rfl (.refl _)

/-- A process existed before the move, with the same pid, or has just been created. -/
theorem pid_step (hs : Shape s) (hstep : step a s = some t) (hi : (t.proc i).state ≠ .unused) :
    (s.proc i).state ≠ .unused ∧ (t.proc i).pid = (s.proc i).pid ∨
      (s.proc i).state = .unused ∧ (t.proc i).state = .embryo := by
  have hused : Edge (s.proc i).state (t.proc i).state → (s.proc i).state ≠ .unused :=
    fun he hu ↦ hi (hu ▸ he).of_unused
  cases lifeMove hs hstep i with
  | same he hid => exact .inl ⟨hused he, hid.pid⟩
  | create _ hsrc hdst => exact .inr ⟨hsrc, hdst⟩
  | publish _ hchild _ hpid =>
    refine .inl ⟨?_, hpid⟩
    rw [(hs.copy_embryo (child_eq_some hchild).2).1]
    simp
  | exit _ hq _ hpid =>
    refine .inl ⟨?_, hpid⟩
    rw [hs.caller_running hq]
    simp
  | orphan _ _ _ _ he hpid => exact .inl ⟨hused he, hpid⟩
  | kill _ _ he hpid => exact .inl ⟨hused he, hpid⟩
  | fault _ _ hstate hpid => exact .inl ⟨hstate ▸ hi, hpid⟩
  | reap _ _ _ hdst => exact absurd hdst hi

end CS537.Mlfq
