import CS537.Mlfq.Lives
import CS537.Mlfq.Loop

/-!
# The handshake of `exit` and `wait`

`exit` wakes the parent before the process becomes a zombie, and wakes init for every zombie it
hands over, all under `ptable.lock`; `wait` goes to sleep only after it has found a child and no
zombie among its children. So no process sleeps in `wait` next to a zombie child, and every exited
process is reaped at most once, by its parent.
-/

namespace CS537.Mlfq

open Function Transition

variable {ncpu : ℕ} {s t : Kernel ncpu} {a : Act ncpu} {c : Fin ncpu} {i p q : Slot}

/-! ## Sleepers -/

/-- The process is asleep inside `wait`. -/
def InWait (p : Proc) : Prop := p.state = .sleeping ∧ p.context.pos = .wait

/-- The move is a round of `wait` by the process in `i` that ends in `sleep`. -/
def Blocks (i : Slot) (s t : Kernel ncpu) : Prop :=
  (∃ p, (s.proc p).parent = some i) ∧
    (∀ p, (s.proc p).parent = some i → (s.proc p).state ≠ .zombie) ∧
    (t.proc i).chan = some (.proc i) ∧ ∀ p, (t.proc p).parent = (s.proc p).parent ∧
      ((t.proc p).state = .zombie → (s.proc p).state = .zombie)

/-- A sleeper slept before the move, in the same place, or the move put it to sleep. -/
inductive AsleepMove (i : Slot) (s t : Kernel ncpu) : Prop
  | before (hstate : (s.proc i).state = .sleeping) (hchan : (t.proc i).chan = (s.proc i).chan)
    (hcontext : (t.proc i).context = (s.proc i).context)
  | sleep (hpos : (t.proc i).context.pos = .sleep)
  | wait (h : Blocks i s t)

theorem AsleepMove.of_eq (h : t.proc i = s.proc i) (hi : (t.proc i).state = .sleeping) :
    AsleepMove i s t :=
  .before (h ▸ hi) (by rw [h]) (by rw [h])

/-- A move that overwrites one slot with a record that does not sleep. -/
theorem AsleepMove.of_update {r : Proc} (h : t.proc i = update s.proc q r i)
    (hr : r.state ≠ .sleeping) (hi : (t.proc i).state = .sleeping) : AsleepMove i s t := by
  rcases eq_or_ne i q with rfl | hne
  · rw [h, update_self] at hi
    exact absurd hi hr
  · rw [update_of_ne hne] at h
    exact .of_eq h hi

theorem Kept.asleep {t : Kernel ncpu} (h : Kept (s.proc i) (t.proc i))
    (hi : (t.proc i).state = .sleeping) : AsleepMove i s t := by
  refine .before ?_ h.chan h.context
  rcases h.state with he | ⟨-, hrun⟩
  · rwa [← he]
  · rw [hrun] at hi
    cases hi

theorem waitScan_block (h : waitScan q s = .block) : (∃ p, (s.proc p).parent = some q) ∧
    ∀ p, (s.proc p).parent = some q → (s.proc p).state ≠ .zombie := by
  rw [waitScan] at h
  split at h
  · cases h
  · next hnone =>
    rw [List.find?_eq_none] at hnone
    split at h
    · cases h
    · next hchild =>
      rw [not_or, not_forall] at hchild
      obtain ⟨⟨p, hp⟩, -⟩ := hchild
      refine ⟨⟨p, by simpa [mem_slots] using hp⟩, fun p hparent hzombie ↦ ?_⟩
      exact hnone p (mem_slots p) (by simp [hparent, hzombie])

theorem sleepAs_proc (x : Pos) (chan : Chan) (c : Fin ncpu) (q : Slot) (u : Kernel ncpu) :
    (sleepAs x chan c q u).proc = update u.proc q { u.proc q with
      chan := some chan, state := .sleeping,
      context := { (u.proc q).context with pos := x } } := by
  rw [sleepAs, sched_proc, addLevel_proc, setProc_proc]

theorem asleep_wait {u : Kernel ncpu} {r : Proc} (hu : u.proc = update s.proc q r)
    (hid : SameId (s.proc q) r) (hsrc : (s.proc q).state = .running) (hr : r.state = .running)
    (hi : ((wait c q u).proc i).state = .sleeping) : AsleepMove i s (wait c q u) := by
  have hsame : ∀ p, (u.proc p).parent = (s.proc p).parent ∧
      (u.proc p).state = (s.proc p).state := by
    intro p
    rw [hu]
    rcases eq_or_ne p q with rfl | hne
    · rw [update_self]
      exact ⟨hid.parent, hr.trans hsrc.symm⟩
    · rw [update_of_ne hne]
      exact ⟨rfl, rfl⟩
  rw [wait] at hi ⊢
  cases hscan : waitScan q u with
  | reap p pid =>
    simp only [hscan] at hi ⊢
    rw [setLock_proc, setProc_proc] at hi
    have hip : i ≠ p := by
      rintro rfl
      rw [update_self] at hi
      cases hi
    refine .of_update (q := q) (r := r) ?_ (by rw [hr]; simp) ?_
    · rw [setLock_proc, setProc_proc, update_of_ne hip, hu]
    · rwa [setLock_proc, setProc_proc]
  | fail =>
    simp only [hscan] at hi ⊢
    exact .of_update (congrFun hu i) (by rw [hr]; simp) hi
  | block =>
    simp only [hscan] at hi ⊢
    have hproc := sleepAs_proc .wait (.proc q) c q u
    -- it is the caller that goes to sleep, after a scan under the lock that found no zombie
    rcases eq_or_ne i q with rfl | hne
    · obtain ⟨⟨p, hp⟩, halive⟩ := waitScan_block hscan
      refine .wait ⟨⟨p, (hsame p).1 ▸ hp⟩, fun p hp ↦ ?_, ?_, fun p ↦ ?_⟩
      · rw [← (hsame p).2]
        exact halive p ((hsame p).1.trans hp)
      · rw [hproc, update_self]
      · rw [hproc, ← (hsame p).1, ← (hsame p).2]
        rcases eq_or_ne p i with rfl | hpi
        · rw [update_self]
          exact ⟨rfl, fun h ↦ by cases h⟩
        · rw [update_of_ne hpi]
          exact ⟨rfl, id⟩
    · refine .of_eq ?_ hi
      rw [hproc, update_of_ne hne, hu, update_of_ne hne]

theorem checkStarveAndBoost_chan (s : Kernel ncpu) (r : Slot) :
    ((checkStarveAndBoost s).proc r).chan = (s.proc r).chan := by
  refine checkStarveAndBoost_rec (P := fun t ↦ (t.proc r).chan = (s.proc r).chan) rfl
    fun t i ht ↦ ?_
  rw [← ht, boostOne_eq]
  split
  · rfl
  · rw [takeSnapshot]
    split
    · rcases eq_or_ne r i with rfl | hr
      · simp [promote, Cumulative.promote]
      · simp [promote, Cumulative.promote, hr]
    · rfl

/-- Overwriting the position of a process that does not sleep. -/
theorem setPos_asleep {u : Kernel ncpu} (hq : (u.proc q).state ≠ .sleeping) (x : Pos)
    (hi : ((u.setPos q x).proc i).state = .sleeping) :
    (u.setPos q x).proc i = u.proc i ∧ (u.proc i).state = .sleeping := by
  rw [setPos_state] at hi
  have hne : i ≠ q := by
    rintro rfl
    exact hq hi
  exact ⟨update_of_ne hne _ _, hi⟩

/-- Overwriting a slot other than that of the running process, and the position of the latter. -/
theorem asleep_child (hne : p ≠ q) (hrun : (s.proc q).state = .running) {r : Proc}
    (hr : r.state ≠ .sleeping) (x : Pos)
    (hi : (((s.setProc p r).setPos q x).proc i).state = .sleeping) :
    ((s.setProc p r).setPos q x).proc i = s.proc i := by
  have hq : ((s.setProc p r).proc q).state ≠ .sleeping := by
    rw [setProc_proc, update_of_ne hne.symm, hrun]
    simp
  obtain ⟨heq, hi⟩ := setPos_asleep hq x hi
  rw [heq, setProc_proc]
  refine update_of_ne ?_ _ _
  rintro rfl
  rw [setProc_proc, update_self] at hi
  exact hr hi

section Moves

theorem asleep_schedulerStep {ii : ℤ} {k : ℕ}
    (hi : ((schedulerStep c ii k s).proc i).state = .sleeping) :
    AsleepMove i s (schedulerStep c ii k s) := by
  rw [schedulerStep_eq] at hi ⊢
  cases hit : iterate s.proc s.ninlevel ii k with
  | next ii' k' =>
    simp only [hit] at hi ⊢
    exact .of_eq rfl hi
  | dispatch r =>
    simp only [hit] at hi ⊢
    exact .of_update (congrFun (dispatch_proc c r ii) i) (by simp [Proc.charged]) hi
  | release =>
    simp only [hit] at hi ⊢
    exact .of_eq rfl hi

theorem asleep_resume (hq : (s.proc q).state = .running)
    (hi : ((resume c q s).proc i).state = .sleeping) : AsleepMove i s (resume c q s) := by
  have hrun : (s.proc q).state ≠ .sleeping := by simp [hq]
  -- the process comes out of `sleep` with `chan` cleared
  have hback : ((s.setChan q none).setPos q .user).proc = update s.proc q { s.proc q with
      chan := none, context := { (s.proc q).context with pos := .user } } := by
    rw [Kernel.setPos, setProc_proc, Kernel.setChan, setProc_proc, update_idem, update_self]
  cases hpos : (s.proc q).context.pos with
  | forkret =>
    simp only [resume, hpos] at hi ⊢
    exact .of_update rfl hrun hi
  | sleep =>
    simp only [resume, hpos] at hi ⊢
    exact .of_update (congrFun hback i) hrun hi
  | wait =>
    simp only [resume, hpos] at hi ⊢
    exact asleep_wait hback ⟨rfl, rfl, rfl⟩ hq hq hi
  | user | copy | count | store =>
    simp only [resume, hpos] at hi ⊢
    exact .of_update rfl hrun hi

theorem asleep_boost (hq : (s.proc q).state = .running)
    (hi : (((checkStarveAndBoost s).setTrap q .yield).proc i).state = .sleeping) :
    AsleepMove i s ((checkStarveAndBoost s).setTrap q .yield) := by
  rw [setTrap_state, (checkStarveAndBoost_frame i).1] at hi
  have hne : i ≠ q := by
    rintro rfl
    cases hi.symm.trans hq
  refine .before hi ?_ ?_ <;> rw [Kernel.setTrap, setProc_proc, update_of_ne hne]
  exacts [checkStarveAndBoost_chan s i, (checkStarveAndBoost_frame i).2]

theorem asleep_sleep {chan : Chan} (hi : ((sleep chan c q s).proc i).state = .sleeping) :
    AsleepMove i s (sleep chan c q s) := by
  have hproc := sleepAs_proc .sleep chan c q s
  rcases eq_or_ne i q with rfl | hne
  · refine .sleep ?_
    rw [sleep, hproc, update_self]
  · refine .of_eq ?_ hi
    rw [sleep, hproc, update_of_ne hne]

theorem asleep_exit (hi : ((exit c q s).proc i).state = .sleeping) :
    AsleepMove i s (exit c q s) := by
  have hp : (exit c q s).proc i = (abandonChildren q (wakeParent q s)).proc i := by
    rw [exit_proc] at hi ⊢
    refine update_of_ne ?_ _ _
    rintro rfl
    rw [update_self] at hi
    cases hi
  have hkept := abandoned_kept q s i
  rw [← hp] at hkept
  exact hkept.asleep hi

theorem asleep_kill {pid : ℤ} (hi : ((kill pid s).proc i).state = .sleeping) :
    AsleepMove i s (kill pid s) := by
  rw [kill] at hi ⊢
  cases hfind : slots.find? (fun q ↦ (s.proc q).pid = pid) with
  | none =>
    simp only [hfind] at hi ⊢
    exact .of_eq rfl hi
  | some r =>
    simp only [hfind] at hi ⊢
    by_cases hr : (s.proc r).state = .sleeping
    · rw [if_pos hr] at hi ⊢
      exact .of_update rfl (by simp) hi
    · rw [if_neg hr] at hi ⊢
      exact .of_update rfl hr hi

theorem asleep_allocproc (hq : (s.proc q).state = .running)
    (hi : ((allocproc q s).proc i).state = .sleeping) : AsleepMove i s (allocproc q s) := by
  rw [allocproc] at hi ⊢
  cases hfind : slots.find? (fun p ↦ (s.proc p).state = .unused) with
  | none =>
    simp only [hfind] at hi ⊢
    exact .of_eq rfl hi
  | some np =>
    have hne : np ≠ q := by
      rintro rfl
      have hunused : (s.proc np).state = .unused := by simpa using List.find?_some hfind
      cases hunused.symm.trans hq
    simp only [hfind] at hi ⊢
    exact .of_eq (asleep_child hne hq (by simp [Proc.embryo]) _ hi) hi

/-- The increment of `fork` sets the parent's position only. -/
theorem asleep_forkLoad (hq : (s.proc q).state = .running) (np : Slot)
    (hi : ((forkLoad q np s).proc i).state = .sleeping) :
    (forkLoad q np s).proc i = s.proc i ∧ (s.proc i).state = .sleeping := by
  rw [forkLoad] at hi ⊢
  exact setPos_asleep (by simp [hq]) _ hi

theorem asleep_forkStore (hq : (s.proc q).state = .running) (v : ℤ)
    (hi : ((forkStore q v s).proc i).state = .sleeping) :
    (forkStore q v s).proc i = s.proc i ∧ (s.proc i).state = .sleeping := by
  rw [forkStore] at hi ⊢
  have hrun : ((s.setLevel 0 v).proc q).state ≠ .sleeping := by
    rw [Kernel.setLevel, hq]
    decide
  exact setPos_asleep hrun _ hi

theorem asleep_forkCount (hq : (s.proc q).state = .running)
    (hi : ((forkCount q s).proc i).state = .sleeping) :
    (forkCount q s).proc i = s.proc i ∧ (s.proc i).state = .sleeping := by
  rw [forkCount] at hi ⊢
  have hrun : ((s.addLevel 0 1).proc q).state ≠ .sleeping := by simp [hq]
  exact setPos_asleep hrun _ hi

end Moves

/-- **A move puts a process to sleep only in the two calls of `sleep`.** -/
theorem asleepMove (h : Shape s) (hstep : step a s = some t)
    (hi : (t.proc i).state = .sleeping) : AsleepMove i s t := by
  cases trans_of_step hstep with
  | acquire => exact .of_eq rfl hi
  | scan => exact asleep_schedulerStep hi
  | resume hc => exact asleep_resume (h.running hc) hi
  | @timer _ q hq =>
    have hrun : (s.proc q).state ≠ .sleeping := by
      rw [h.interruptible_running hq]
      simp
    by_cases hclock : s.starveClock + 1 = 100
    · simp only [timer, hclock, if_true] at hi ⊢
      exact .of_update rfl hrun hi
    · simp only [timer, hclock, if_false] at hi ⊢
      exact .of_update rfl hrun hi
  | boost hq => exact asleep_boost (h.current_running hq) hi
  | @yield _ q _ _ _ =>
    refine .of_update (q := q) (congrFun (sched_proc _ _) i) ?_ hi
    simp
  | sleep => exact asleep_sleep hi
  | @wakeup _ chan _ => exact (wakeup1_kept chan s i).asleep hi
  | exit => exact asleep_exit hi
  | wait hq =>
    have hrun := h.caller_running hq
    exact asleep_wait (update_eq_self _ _).symm (.refl _) hrun hrun hi
  | kill => exact asleep_kill hi
  | fault hq =>
    refine .of_update rfl ?_ hi
    rw [h.caller_running hq]
    simp
  | allocproc hq => exact asleep_allocproc (h.caller_running hq) hi
  | forkFail hq | forkPublish hq =>
    have hrun := h.child_running hq
    have hne := h.child_ne (child_eq_some hq).2 hrun
    exact .of_eq (asleep_child hne hrun (by simp) _ hi) hi
  | forkLoad hq => exact .of_eq (asleep_forkLoad (h.interruptible_running hq) _ hi).1 hi
  | forkStore hq | forkTorn hq =>
    exact .of_eq (asleep_forkStore (h.interruptible_running hq) _ hi).1 hi
  | @fork _ q np hq =>
    have hrun := h.child_running hq
    have hne := h.child_ne (child_eq_some hq).2 hrun
    have hpublished : ((forkPublish q np s).proc q).state = .running := by
      rw [forkPublish, setPos_state, setProc_proc, update_of_ne hne.symm, hrun]
    obtain ⟨heq, hi'⟩ := asleep_forkCount hpublished hi
    exact .of_eq (heq.trans (asleep_child hne hrun (by simp) _ hi')) hi

/-! ## Whom `exit` wakes -/

/-- The process in the slot does not sleep on its own address. -/
def Awake (i : Slot) (s : Kernel ncpu) : Prop :=
  ¬((s.proc i).state = .sleeping ∧ (s.proc i).chan = some (.proc i))

theorem Awake.kept (h : Awake i s) (hkept : Kept (s.proc i) (t.proc i)) : Awake i t := by
  rintro ⟨hstate, hchan⟩
  rcases hkept.state with he | ⟨-, hrun⟩
  · exact h ⟨he ▸ hstate, hkept.chan ▸ hchan⟩
  · cases hrun.symm.trans hstate

theorem awake_wakeup1 (i : Slot) (s : Kernel ncpu) : Awake i (wakeup1 (.proc i) s) := by
  rw [Awake, wakeup1_proc]
  exact Proc.not_asleep_wake _ _

theorem awake_exit (h : Awake i (abandonChildren q (wakeParent q s))) :
    Awake i (exit c q s) := by
  rw [Awake, exit_proc]
  rcases eq_or_ne i q with rfl | hne
  · rw [update_self]
    rintro ⟨hstate, -⟩
    cases hstate
  · rwa [update_of_ne hne]

theorem exit_wakes_parent (hparent : (s.proc q).parent = some i) : Awake i (exit c q s) := by
  refine awake_exit (Awake.kept ?_ (abandonChildren_kept q _ i))
  rw [wakeParent_of_parent hparent]
  exact awake_wakeup1 i s

/-- A zombie that is handed to init makes `exit` wake init. -/
theorem exit_wakes_init (hparent : (s.proc p).parent = some q)
    (hzombie : (s.proc p).state = .zombie) : Awake initproc (exit c q s) := by
  have hkeep : ∀ {u v : Kernel ncpu}, Kept (u.proc p) (v.proc p) →
      (u.proc p).state = .zombie → (v.proc p).state = .zombie := by
    intro u v hkept hu
    rcases hkept.state with he | ⟨hsleep, -⟩
    · rw [he, hu]
    · cases hu.symm.trans hsleep
  refine awake_exit ?_
  rw [abandonChildren]
  -- until the loop comes to `p`, `p` stays a zombie child of the process that exits
  refine Sweep.foldl_visit (j := p)
    (Q := fun u : Kernel ncpu ↦ (u.proc p).parent = some q ∧ (u.proc p).state = .zombie)
    ?_ ?_ ?_ (mem_slots p) ⟨(wakeParent_parent q s p).trans hparent,
      hkeep (wakeParent_kept q s p) hzombie⟩
  · rintro u ⟨hu, hz⟩
    have hset : ((u.setProc p { u.proc p with parent := some initproc }).proc p).state
        = .zombie := by
      rw [setProc_proc, update_self]
      exact hz
    rw [reparentOne, if_pos hu]
    simp only
    rw [if_pos hset]
    exact awake_wakeup1 _ _
  · rintro u r hr ⟨hu, hz⟩
    exact ⟨(reparentOne_parent_of_ne q u r p hr.symm).trans hu,
      hkeep (reparentOne_kept q u r p) hz⟩
  · exact fun u r hu ↦ hu.kept (reparentOne_kept q u r initproc)

/-! ## No parent asleep beside a zombie -/

/-- Init has no parent and never ends, and a slot that is free or being set up has none either. -/
structure Rooted (s : Kernel ncpu) : Prop where
  parent : (s.proc initproc).parent = none
  unused : (s.proc initproc).state ≠ .unused
  embryo : (s.proc initproc).state ≠ .embryo
  zombie : (s.proc initproc).state ≠ .zombie
  free : ∀ p, (s.proc p).state = .unused ∨ (s.proc p).state = .embryo → (s.proc p).parent = none
  other : ∀ p, (s.proc p).parent ≠ some p

/-- A process asleep in `wait` has a child, and none of its children is a zombie. -/
structure Handshake (s : Kernel ncpu) : Prop where
  chan : ∀ i, InWait (s.proc i) → (s.proc i).chan = some (.proc i)
  child : ∀ i, InWait (s.proc i) → ∃ p, (s.proc p).parent = some i
  alive : ∀ i p, InWait (s.proc i) → (s.proc p).parent = some i → (s.proc p).state ≠ .zombie

theorem exit_inv (hstep : step (.exit c) s = some t) (hq : s.caller c = some q) :
    q ≠ initproc ∧ t = exit c q s := by
  obtain ⟨r, hr, h⟩ := Option.bind_eq_some_iff.mp hstep
  obtain ⟨⟨hne, -⟩, ht⟩ := Option.ite_none_right_eq_some.mp h
  obtain rfl := Option.some.inj (hr.symm.trans hq)
  exact ⟨hne, (Option.some.inj ht).symm⟩

/-- An edge neither frees nor sets up a slot that was neither free nor being set up, and it ends
nothing. -/
theorem Edge.live {x y : ProcState} (h : Edge x y) (hu : x ≠ .unused) (he : x ≠ .embryo)
    (hz : x ≠ .zombie) : y ≠ .unused ∧ y ≠ .embryo ∧ y ≠ .zombie := by
  cases h with
  | stay => exact ⟨hu, he, hz⟩
  | fail => exact absurd rfl he
  | _ => simp

theorem Edge.free {x y : ProcState} (h : Edge x y) (hy : y = .unused ∨ y = .embryo) :
    x = .unused ∨ x = .embryo := by
  cases h with
  | stay => exact hy
  | fail => exact .inr rfl
  | _ => simp at hy

theorem Rooted.init_step (h : Rooted s) (hs : Shape s) (hstep : step a s = some t) :
    (t.proc initproc).parent = none ∧ (t.proc initproc).state ≠ .unused ∧
      (t.proc initproc).state ≠ .embryo ∧ (t.proc initproc).state ≠ .zombie := by
  have hlive : Edge (s.proc initproc).state (t.proc initproc).state →
      (t.proc initproc).state ≠ .unused ∧ (t.proc initproc).state ≠ .embryo ∧
        (t.proc initproc).state ≠ .zombie := fun he ↦ he.live h.unused h.embryo h.zombie
  cases lifeMove hs hstep initproc with
  | same he hid => exact ⟨hid.parent.trans h.parent, hlive he⟩
  | create _ hsrc => exact absurd hsrc h.unused
  | publish _ hchild => exact absurd (hs.copy_embryo (child_eq_some hchild).2).1 h.embryo
  | exit ha hq =>
    subst ha
    exact absurd rfl (exit_inv hstep hq).1
  | orphan _ _ _ hsrc => cases h.parent.symm.trans hsrc
  | kill _ _ he _ hparent => exact ⟨hparent.trans h.parent, hlive he⟩
  | fault _ _ hstate _ hparent =>
    exact ⟨hparent.trans h.parent, hlive (hstate ▸ .stay _)⟩
  | reap _ hsrc => exact absurd hsrc h.zombie

theorem Rooted.step (h : Rooted s) (hs : Shape s) (hstep : step a s = some t) : Rooted t := by
  obtain ⟨hparent, hunused, hembryo, hzombie⟩ := h.init_step hs hstep
  refine ⟨hparent, hunused, hembryo, hzombie, fun p hp ↦ ?_, fun p hp ↦ ?_⟩
  · cases lifeMove hs hstep p with
    | same he hid => exact hid.parent.trans (h.free p (he.free hp))
    | create _ hsrc _ hpar => exact hpar.trans (h.free p (.inl hsrc))
    | publish _ _ hdst => simp [hdst] at hp
    | exit _ _ hdst => simp [hdst] at hp
    | orphan _ _ _ hsrc he => cases (h.free p (he.free hp)).symm.trans hsrc
    | kill _ _ he _ hpar => exact hpar.trans (h.free p (he.free hp))
    | fault _ hq hstate =>
      rw [hstate, hs.caller_running hq] at hp
      simp at hp
    | reap _ _ _ _ _ hfree => exact hfree
  · cases lifeMove hs hstep p with
    | same _ hid => exact h.other p (hid.parent.symm.trans hp)
    | create _ _ _ hpar => exact h.other p (hpar.symm.trans hp)
    | publish _ hchild _ _ hpar =>
      have hne := hs.child_ne (child_eq_some hchild).2 (hs.child_running hchild)
      exact hne (Option.some.inj (hp.symm.trans hpar))
    | exit _ _ _ _ hpar =>
      rw [if_neg (h.other p)] at hpar
      exact h.other p (hpar.symm.trans hp)
    | orphan _ _ _ hsrc _ _ hpar =>
      obtain rfl : p = initproc := Option.some.inj (hp.symm.trans hpar)
      cases h.parent.symm.trans hsrc
    | kill _ _ _ _ hpar => exact h.other p (hpar.symm.trans hp)
    | fault _ _ _ _ hpar => exact h.other p (hpar.symm.trans hp)
    | reap _ _ _ _ _ hfree => cases hfree.symm.trans hp

/-- A sleeper in `wait` that was asleep before keeps its children, and none of them has ended. -/
theorem Handshake.keep (h : Handshake s) (hr : Rooted s) (hs : Shape s)
    (hstep : step a s = some t) (hi : InWait (s.proc i)) (hawake : ¬Awake i t) :
    (∃ p, (t.proc p).parent = some i) ∧
      ∀ p, (t.proc p).parent = some i → (t.proc p).state ≠ .zombie := by
  -- the sleeper itself makes no move
  have hasleep : ∀ {q}, (s.proc q).state = .running → q ≠ i := by
    rintro q hrun rfl
    cases hi.1.symm.trans hrun
  constructor
  · obtain ⟨p, hp⟩ := h.child i hi
    refine ⟨p, ?_⟩
    cases lifeMove hs hstep p with
    | same _ hid => exact hid.parent.trans hp
    | create _ _ _ hpar => exact hpar.trans hp
    | publish _ hchild =>
      have hnone := hr.free p (.inr (hs.copy_embryo (child_eq_some hchild).2).1)
      cases hp.symm.trans hnone
    | exit _ _ _ _ hpar =>
      rw [if_neg (hr.other p)] at hpar
      exact hpar.trans hp
    | orphan _ hq _ hsrc =>
      exact absurd (Option.some.inj (hsrc.symm.trans hp)) (hasleep (hs.caller_running hq))
    | kill _ _ _ _ hpar => exact hpar.trans hp
    | fault _ _ _ _ hpar => exact hpar.trans hp
    | reap ha _ hpar =>
      exact absurd (Option.some.inj (hpar.symm.trans hp)) (hasleep (hs.inWaitLoop_running ha))
  · intro p hp hzombie
    -- a child ends only in the `exit` of its own
    have hold : (s.proc p).parent = some i → Edge (s.proc p).state (t.proc p).state → False := by
      intro hpar he
      rw [hzombie] at he
      generalize hx : (s.proc p).state = x at he
      cases he
      exact h.alive i p hi hpar hx
    cases lifeMove hs hstep p with
    | same he hid => exact hold (hid.parent.symm.trans hp) he
    | create _ _ hdst => cases hzombie.symm.trans hdst
    | publish _ _ hdst => cases hzombie.symm.trans hdst
    | @exit c ha hq _ _ hpar =>
      subst ha
      rw [if_neg (hr.other p)] at hpar
      -- `p` is the process that exits, and it wakes its parent first
      obtain ⟨-, rfl⟩ := exit_inv hstep hq
      exact hawake (exit_wakes_parent (hpar.symm.trans hp))
    | @orphan c q ha hq hne hsrc he _ hpar =>
      subst ha
      obtain rfl : i = initproc := Option.some.inj (hp.symm.trans hpar)
      -- `p` is a zombie that is handed to init, and init is woken for it
      obtain ⟨-, rfl⟩ := exit_inv hstep hq
      rw [hzombie] at he
      generalize hx : (s.proc p).state = x at he
      cases he
      exact hawake (exit_wakes_init hsrc hx)
    | kill _ _ he _ hpar => exact hold (hpar.symm.trans hp) he
    | fault _ _ hstate _ hpar => exact hold (hpar.symm.trans hp) (hstate ▸ .stay _)
    | reap _ _ _ hdst => cases hzombie.symm.trans hdst

theorem Handshake.step (h : Handshake s) (hr : Rooted s) (hs : Shape s)
    (hstep : step a s = some t) : Handshake t := by
  have hall : ∀ i, InWait (t.proc i) → (t.proc i).chan = some (.proc i) ∧
      (∃ p, (t.proc p).parent = some i) ∧
        ∀ p, (t.proc p).parent = some i → (t.proc p).state ≠ .zombie := by
    rintro i ⟨hstate, hpos⟩
    cases asleepMove hs hstep hstate with
    | before hsrc hchan hcontext =>
      have hi : InWait (s.proc i) := ⟨hsrc, hcontext ▸ hpos⟩
      have hown := hchan.trans (h.chan i hi)
      exact ⟨hown, h.keep hr hs hstep hi fun hawake ↦ hawake ⟨hstate, hown⟩⟩
    | sleep hsleep => cases hpos.symm.trans hsleep
    -- the scan before the sleep has found a child and no zombie, under the same lock
    | wait hblocks =>
      obtain ⟨⟨p, hp⟩, halive, hchan, hframe⟩ := hblocks
      refine ⟨hchan, ⟨p, (hframe p).1.trans hp⟩, fun p hp hzombie ↦ ?_⟩
      exact halive p ((hframe p).1.symm.trans hp) ((hframe p).2 hzombie)
  exact ⟨fun i hi ↦ (hall i hi).1, fun i hi ↦ (hall i hi).2.1, fun i p hi ↦ (hall i hi).2.2 p⟩

theorem boot_frame (i : Slot) : ((boot ncpu).proc i).parent = none ∧
    (((boot ncpu).proc i).state = .runnable ↔ i = initproc) ∧
      (((boot ncpu).proc i).state = .unused ↔ i ≠ initproc) := by
  rcases eq_or_ne i initproc with rfl | hi
  · simp [boot, bootProc]
  · simp [boot, bootProc, hi]

theorem Rooted.boot : Rooted (boot ncpu) := by
  have hinit : ((Mlfq.boot ncpu).proc initproc).state = .runnable :=
    (boot_frame initproc).2.1.mpr rfl
  refine ⟨(boot_frame _).1, ?_, ?_, ?_, fun p _ ↦ (boot_frame p).1, fun p hp ↦ ?_⟩
  · simp [hinit]
  · simp [hinit]
  · simp [hinit]
  · cases (boot_frame p).1.symm.trans hp

theorem Handshake.boot : Handshake (boot ncpu) := by
  have hnone : ∀ i, ¬InWait ((Mlfq.boot ncpu).proc i) := by
    rintro i ⟨hstate, -⟩
    rcases eq_or_ne i initproc with hi | hi
    · cases ((boot_frame i).2.1.mpr hi).symm.trans hstate
    · cases ((boot_frame i).2.2.mpr hi).symm.trans hstate
  exact ⟨fun i hi ↦ absurd hi (hnone i), fun i hi ↦ absurd hi (hnone i),
    fun i _ hi ↦ absurd hi (hnone i)⟩

theorem handshake_of_reachable (h : Reachable s) : Rooted s ∧ Handshake s := by
  refine (ReachableBy.invariant (P := fun s ↦ Shape s ∧ Rooted s ∧ Handshake s) h ?_ ?_).2
  · rintro _ rfl
    exact ⟨.boot, .boot, .boot⟩
  · rintro s a t ⟨hs, hr, hh⟩ hstep -
    exact ⟨hs.step hstep, hr.step hs hstep, hh.step hr hs hstep⟩

end CS537.Mlfq
