import CS537.Lib.Tally
import CS537.Mlfq.Quiet
import Mathlib.Tactic.Linarith
import Mathlib.Tactic.Ring

/-!
# The level counters

`ninlevel[l]` is maintained by hand in eight places. The *surplus* of a level is the counter minus
the number of RUNNABLE and RUNNING processes of the level, plus, for level 0, the number of forks
that have made their child RUNNABLE and not yet finished `ninlevel[0]++`. Every move leaves the
surplus of every level as it is, but for an increment in `fork` that is torn by another update. So
as long as none is torn the surplus is 0, and the counters are right exactly when no fork stands
between its last two statements.
-/

namespace CS537.Mlfq

open Function Tally Transition

variable {ncpu : ℕ} {s t : Kernel ncpu}

/-! ## The surplus of a level -/

/-- What a fork between its two statements lacks in the counter of level `l`. -/
def pending (l : ℤ) (x : Pos) : ℤ := if x.Between ∧ l = 0 then 1 else 0

@[simp] theorem pending_of_not_between {x : Pos} (h : ¬x.Between) (l : ℤ) : pending l x = 0 := by
  rw [pending, if_neg fun hx ↦ h hx.1]

/-- What a process should count for in `ninlevel[l]`. -/
def share (l : ℤ) (p : Proc) : ℤ := if p.Ready ∧ p.level = l then 1 else 0

/-- What a slot adds to the surplus of the level `l`. -/
def slotWeight (l : ℤ) (p : Proc) : ℤ := pending l p.context.pos - share l p

theorem share_of_ready {p : Proc} (h : p.Ready) (l : ℤ) :
    share l p = if l = p.level then 1 else 0 := by
  rw [share]
  simp only [h, true_and, eq_comm (a := l)]

theorem share_of_not_ready {p : Proc} (h : ¬p.Ready) (l : ℤ) : share l p = 0 := by
  rw [share, if_neg fun hp ↦ h hp.1]

theorem ready_of_running {p : Proc} (h : p.state = .running) : p.Ready := .inr h

theorem ready_of_runnable {p : Proc} (h : p.state = .runnable) : p.Ready := .inl h

theorem not_ready {p : Proc} {x : ProcState} (h : p.state = x)
    (hx : x ≠ .runnable ∧ x ≠ .running := by decide) : ¬p.Ready := by
  rintro (hp | hp)
  · exact hx.1 (h.symm.trans hp)
  · exact hx.2 (h.symm.trans hp)

def surplus (l : ℤ) (s : Kernel ncpu) : ℤ := s.ninlevel l + tally (slotWeight l) s.proc

theorem surplus_congr (hp : t.proc = s.proc) (hn : t.ninlevel = s.ninlevel) (l : ℤ) :
    surplus l t = surplus l s := by
  rw [surplus, surplus, hp, hn]

section Setters

variable (s) (l : ℤ) (q : Slot)

theorem surplus_setProc (p : Proc) :
    surplus l (s.setProc q p) = surplus l s + slotWeight l p - slotWeight l (s.proc q) := by
  have h := tally_update (slotWeight l) s.proc q p
  rw [surplus, surplus, setProc_ninlevel, setProc_proc]
  linarith

theorem surplus_addLevel (m d : ℤ) :
    surplus l (s.addLevel m d) = surplus l s + if l = m then d else 0 := by
  rw [surplus, surplus, addLevel_proc, Kernel.addLevel]
  simp only [update_apply]
  split
  · next h =>
    rw [h]
    ring
  · ring

theorem surplus_setLevel (m v : ℤ) :
    surplus l (s.setLevel m v) = surplus l s + if l = m then v - s.ninlevel m else 0 := by
  have hset : s.setLevel m v = s.addLevel m (v - s.ninlevel m) := by
    rw [Kernel.setLevel, Kernel.addLevel, add_sub_cancel]
  rw [hset, surplus_addLevel]

/-- A change of the context that leaves alone the two statements of `fork`, of the channel, of the
parent and the like does not show. -/
theorem surplus_setProc_same {p : Proc} (hw : slotWeight l p = slotWeight l (s.proc q)) :
    surplus l (s.setProc q p) = surplus l s := by
  rw [surplus_setProc, hw]
  ring

theorem surplus_setPos (x : Pos) :
    surplus l (s.setPos q x)
      = surplus l s + pending l x - pending l (s.proc q).context.pos := by
  have hshare : share l { s.proc q with context := { (s.proc q).context with pos := x } }
      = share l (s.proc q) := rfl
  rw [Kernel.setPos, surplus_setProc, slotWeight, slotWeight, hshare]
  ring

theorem surplus_setPos_user (h : ¬(s.proc q).context.pos.Between) :
    surplus l (s.setPos q .user) = surplus l s := by
  rw [surplus_setPos, pending_of_not_between h, pending_of_not_between not_between_user]
  ring

theorem surplus_setTrap (x : TrapPos) : surplus l (s.setTrap q x) = surplus l s :=
  surplus_setProc_same s l q rfl

theorem surplus_setChan (x : Option Chan) : surplus l (s.setChan q x) = surplus l s :=
  surplus_setProc_same s l q rfl

theorem surplus_sched (c : Fin ncpu) : surplus l (sched c s) = surplus l s :=
  surplus_congr (sched_proc s c) (sched_ninlevel s c) l

end Setters

/-! ## The moves -/

section Moves

variable (l : ℤ) {c : Fin ncpu} {q : Slot}

/-- A sleeper is made RUNNABLE and counted. -/
theorem surplus_wake {p : Proc} (hq : (s.proc q).state = .sleeping) (hstate : p.state = .runnable)
    (hlevel : p.level = (s.proc q).level) (hctx : p.context = (s.proc q).context) :
    surplus l ((s.setProc q p).addLevel (s.proc q).level 1) = surplus l s := by
  rw [surplus_addLevel, surplus_setProc, slotWeight, slotWeight, hctx,
    share_of_ready (ready_of_runnable hstate), share_of_not_ready (not_ready hq), hlevel]
  ring

/-- A RUNNING process stops being one and is no longer counted. -/
theorem surplus_unready {p : Proc} (hq : (s.proc q).state = .running) (hp : ¬p.Ready)
    (hpos : pending l p.context.pos = pending l (s.proc q).context.pos) :
    surplus l ((s.setProc q p).addLevel (s.proc q).level (-1)) = surplus l s := by
  rw [surplus_addLevel, surplus_setProc, slotWeight, slotWeight, hpos, share_of_not_ready hp,
    share_of_ready (ready_of_running hq)]
  split
  · ring
  · ring

theorem surplus_wakeOne (chan : Chan) (q : Slot) : surplus l (wakeOne chan s q) = surplus l s := by
  rw [wakeOne]
  split
  · next hq => exact surplus_wake l hq.1 rfl rfl rfl
  · rfl

theorem surplus_wakeup1 (chan : Chan) : surplus l (wakeup1 chan s) = surplus l s :=
  wakeup1_rec (P := fun t ↦ surplus l t = surplus l s) chan rfl fun _ q ht ↦
    (surplus_wakeOne l chan q).trans ht

theorem surplus_kill (pid : ℤ) : surplus l (kill pid s) = surplus l s := by
  rw [kill]
  split
  · rfl
  · next q _ =>
    simp only
    split
    · next hq => exact surplus_wake l hq rfl rfl rfl
    · exact surplus_setProc_same s l q rfl

theorem surplus_sleepAs (hq : (s.proc q).state = .running)
    (hpos : ¬(s.proc q).context.pos.Between) {x : Pos} (hx : ¬x.Between) (chan : Chan) :
    surplus l (sleepAs x chan c q s) = surplus l s := by
  rw [sleepAs, surplus_sched]
  refine surplus_unready l hq (not_ready (x := .sleeping) rfl) ?_
  rw [pending_of_not_between hpos, pending_of_not_between hx]

theorem surplus_yield (hq : (s.proc q).state = .running) :
    surplus l (yield c q s) = surplus l s := by
  rw [yield, surplus_sched]
  refine surplus_setProc_same s l q ?_
  rw [slotWeight, slotWeight, share_of_ready (ready_of_running hq),
    share_of_ready (ready_of_runnable rfl)]

theorem surplus_reparentOne (p : Slot) : surplus l (reparentOne q s p) = surplus l s := by
  rw [reparentOne]
  split
  · have hset : surplus l (s.setProc p { s.proc p with parent := some initproc }) = surplus l s :=
      surplus_setProc_same s l p rfl
    simp only
    split
    · rw [surplus_wakeup1, hset]
    · exact hset
  · rfl

theorem surplus_becomeZombie (hq : (s.proc q).state = .running) :
    surplus l (becomeZombie c q s) = surplus l s := by
  rw [becomeZombie, surplus_sched]
  exact surplus_unready l hq (not_ready (x := .zombie) rfl) rfl

theorem surplus_exit (h : Shape s) {ii : ℤ} {i : ℕ} (hc : s.cpu c = .running q ii i) :
    surplus l (exit c q s) = surplus l s := by
  have hsame : surplus l (abandonChildren q (wakeParent q s)) = surplus l s := by
    refine exit_rec (P := fun t ↦ surplus l t = surplus l s) q rfl ?_ ?_
    · intro t chan ht
      rw [surplus_wakeup1, ht]
    · intro t p ht
      rw [surplus_reparentOne, ht]
  have hs : Shape (abandonChildren q (wakeParent q s)) :=
    exit_rec q h (fun _ chan ht ↦ ht.wakeup1 chan) fun _ p ht ↦ ht.reparentOne q p
  -- the loops of `exit` have left the process on its CPU
  have hrun : ((abandonChildren q (wakeParent q s)).proc q).state = .running := by
    have hc' : (abandonChildren q (wakeParent q s)).cpu c = .running q ii i := by
      rw [(exit_frame q).1, hc]
    exact hs.running hc'
  rw [exit, surplus_becomeZombie l hrun, hsame]

theorem surplus_wait (hq : (s.proc q).state = .running) (hpos : (s.proc q).context.pos = .user) :
    surplus l (wait c q s) = surplus l s := by
  rw [wait]
  split
  · next p pid hp =>
    -- a zombie and a free slot count for nothing
    refine (surplus_congr rfl rfl l).trans (surplus_setProc_same s l p ?_)
    rw [slotWeight, slotWeight, share_of_not_ready (not_ready (waitScan_reap hp).2),
      share_of_not_ready (not_ready (x := .unused) rfl)]
  · rfl
  · exact surplus_sleepAs l hq (by simp [hpos]) (by simp) _

theorem surplus_resume (hq : (s.proc q).state = .running) :
    surplus l (resume c q s) = surplus l s := by
  rw [resume]
  split
  · next hpos => exact surplus_setPos_user s l q (by simp [hpos])
  · next hpos =>
    refine (surplus_setPos_user (s.setChan q none) l q ?_).trans (surplus_setChan s l q none)
    simp [Kernel.setChan, hpos]
  · next hpos =>
    rw [surplus_wait, surplus_setPos_user, surplus_setChan]
    · simp [Kernel.setChan, hpos]
    · simp [Kernel.setChan, Kernel.setPos, hq]
    · simp [Kernel.setPos]
  · exact surplus_setTrap s l q .none

theorem surplus_timer : surplus l (timer q s) = surplus l s := by
  rw [timer]
  split
  · exact (surplus_setTrap _ l q .boost).trans (surplus_congr rfl rfl l)
  · exact (surplus_setTrap _ l q .yield).trans (surplus_congr rfl rfl l)

/-- `fork` gives its slot back. -/
theorem surplus_forkFail (h : Shape s) {np : Slot} (hf : (s.proc q).context.pos = .copy np)
    (hq : (s.proc q).state = .running) : surplus l (forkFail q np s) = surplus l s := by
  have hne := h.child_ne hf hq
  rw [forkFail, surplus_setPos, surplus_setProc, setProc_proc, update_of_ne hne.symm, hf,
    slotWeight, slotWeight, share_of_not_ready (not_ready (h.copy_embryo hf).1),
    share_of_not_ready (not_ready (x := .unused) rfl)]
  simp [pending]

/-- The child is RUNNABLE at level 0 and the fork is between its two statements. -/
theorem surplus_forkPublish (h : Shape s) {np : Slot} (hf : (s.proc q).context.pos = .copy np)
    (hq : (s.proc q).state = .running) : surplus l (forkPublish q np s) = surplus l s := by
  have hne := h.child_ne hf hq
  rw [forkPublish, surplus_setPos, surplus_setProc, setProc_proc, update_of_ne hne.symm, hf,
    slotWeight, slotWeight, share_of_not_ready (not_ready (h.copy_embryo hf).1),
    share_of_ready (ready_of_runnable rfl)]
  simp only [pending, (h.copy_embryo hf).2, between_count, not_between_copy, true_and, false_and,
    if_false]
  ring

theorem surplus_forkLoad {np : Slot} (hf : (s.proc q).context.pos = .count np) :
    surplus l (forkLoad q np s) = surplus l s := by
  rw [forkLoad, surplus_setPos, hf, pending, pending]
  simp only [between_store, between_count, add_sub_cancel_right]

/-- The counter is raised by what the store finds less than what it stores. -/
theorem surplus_forkStore {np : Slot} {n v : ℤ} (hf : (s.proc q).context.pos = .store np n) :
    surplus l (forkStore q v s)
      = surplus l s + if l = 0 then v - 1 - s.ninlevel 0 else 0 := by
  have hproc : ((s.setLevel 0 v).proc q).context.pos = .store np n := hf
  rw [forkStore, surplus_setPos, surplus_setLevel, hproc, pending, pending]
  simp only [not_between_user, between_store, true_and, false_and, if_false]
  split
  · ring
  · ring

theorem surplus_forkCount (hf : (s.proc q).context.pos.Between) :
    surplus l (forkCount q s) = surplus l s := by
  rw [forkCount, surplus_setPos, surplus_addLevel, addLevel_proc]
  simp [pending, hf]

theorem surplus_takeSnapshot (i : Slot) : surplus l (takeSnapshot i s) = surplus l s :=
  surplus_congr rfl rfl l

theorem surplus_promote {i : Slot} (hi : (s.proc i).state = .runnable) :
    surplus l (promote i s) = surplus l s := by
  rw [promote, Cumulative.promote, surplus_addLevel, surplus_setProc, surplus_addLevel,
    slotWeight, slotWeight, addLevel_proc, share_of_ready (ready_of_runnable hi)]
  -- one level loses the process, the one above gains it, and so do their counters
  simp only [share, Proc.Ready, hi, true_or, true_and, eq_comm (b := l)]
  split_ifs <;> ring

theorem surplus_boostOne (i : Slot) : surplus l (boostOne s i) = surplus l s := by
  rw [boostOne_eq]
  split
  · rfl
  · next hi =>
    rw [surplus_takeSnapshot]
    split
    · exact surplus_promote l (not_not.mp hi)
    · rfl

theorem surplus_dispatch (hq : (s.proc q).state = .runnable) (ii : ℤ) :
    surplus l (dispatch c q ii s) = surplus l s := by
  have hstay : ∀ p : Proc, p.state = .running → p.level = (s.proc q).level →
      p.context = (s.proc q).context → surplus l (s.setProc q p) = surplus l s := by
    intro p hp hlevel hctx
    refine surplus_setProc_same s l q ?_
    rw [slotWeight, slotWeight, hctx, share_of_ready (ready_of_running hp),
      share_of_ready (ready_of_runnable hq), hlevel]
  rw [dispatch, Cumulative.dispatch]
  simp only
  split
  · exact hstay _ rfl rfl rfl
  · split
    -- the last tick of a slice moves the process and both counters
    · rw [surplus_congr (setCpu_proc _ _ _) (setCpu_ninlevel _ _ _), surplus_addLevel,
        surplus_setProc, surplus_addLevel, slotWeight, slotWeight, addLevel_proc,
        share_of_ready (ready_of_running rfl), share_of_ready (ready_of_runnable hq)]
      split_ifs <;> ring
    · exact hstay _ rfl rfl rfl

theorem surplus_schedulerStep {ii : ℤ} {p : ℕ} :
    surplus l (schedulerStep c ii p s) = surplus l s := by
  rw [schedulerStep_eq]
  split
  · rfl
  · next q hq => exact surplus_dispatch l (iterate_dispatch hq).1 ii
  · rfl

theorem surplus_allocproc (h : Shape s) (hq : (s.proc q).state = .running)
    (hpos : (s.proc q).context.pos = .user) : surplus l (allocproc q s) = surplus l s := by
  rw [allocproc]
  split
  · rfl
  · next np hnp =>
    have hunused : (s.proc np).state = .unused := by simpa using List.find?_some hnp
    have hne : q ≠ np := fun he ↦ by simp [← he, hq] at hunused
    have hnot : ¬(s.proc np).context.pos.Between := fun hb ↦
      not_ready hunused (by decide) (h.count_ready hb)
    rw [surplus_setPos, bumpPid_proc, setProc_proc, update_of_ne hne, hpos,
      surplus_congr (bumpPid_proc _) rfl, surplus_setProc, slotWeight, slotWeight,
      share_of_not_ready (not_ready hunused), share_of_not_ready (not_ready (x := .embryo) rfl)]
    simp [hnot, Proc.embryo]

end Moves

/-- The increment in `fork` overlaps another update of the counter: it stores when the counter is
no longer what it has loaded, or while another CPU updates it. -/
def Torn (m : Move (Kernel ncpu) (Act ncpu)) : Prop :=
  (∃ c v, m.act = .forkTorn c v) ∨ ∃ c q np n, m.act = .forkStore c ∧
    m.src.interruptible c = some q ∧ (m.src.proc q).context.pos = .store np n ∧
      m.src.ninlevel 0 ≠ n

theorem surplus_step (h : Shape s) {a : Act ncpu} (hstep : step a s = some t)
    (huntorn : ¬Torn ⟨s, a, t⟩) (l : ℤ) : surplus l t = surplus l s := by
  cases trans_of_step hstep with
  | acquire => exact surplus_congr rfl rfl l
  | scan => exact surplus_schedulerStep l
  | resume hc => exact surplus_resume l (h.running hc)
  | timer => exact surplus_timer l
  | boost =>
    rw [surplus_setTrap]
    refine checkStarveAndBoost_rec (P := fun t ↦ surplus l t = surplus l s) rfl fun t i ht ↦ ?_
    rw [surplus_boostOne, ht]
  | yield hq => exact surplus_yield l (h.current_running hq)
  | sleep hq =>
    have hpos := (caller_eq_some hq).2
    exact surplus_sleepAs l (h.caller_running hq) (by simp [hpos]) (by simp) _
  | wakeup => exact surplus_wakeup1 l _
  | exit hq =>
    obtain ⟨_, _, hc⟩ := cpu_of_caller hq
    exact surplus_exit l h hc
  | wait hq => exact surplus_wait l (h.caller_running hq) (caller_eq_some hq).2
  | kill => exact surplus_kill l _
  | fault => exact surplus_setProc_same _ l _ rfl
  | allocproc hq => exact surplus_allocproc l h (h.caller_running hq) (caller_eq_some hq).2
  | forkFail hq =>
    have hf := (child_eq_some hq).2
    exact surplus_forkFail l h hf (h.child_running hq)
  | forkPublish hq =>
    have hf := (child_eq_some hq).2
    exact surplus_forkPublish l h hf (h.child_running hq)
  | forkLoad _ hf => exact surplus_forkLoad l hf
  | @forkStore c q np n hq hf =>
    have hfound : s.ninlevel 0 = n := not_not.mp fun hne ↦
      huntorn (.inr ⟨c, q, np, n, rfl, hq, hf, hne⟩)
    rw [surplus_forkStore l hf, hfound]
    simp
  | @forkTorn c _ _ _ v => exact absurd (.inl ⟨c, v, rfl⟩) huntorn
  | fork hq =>
    have hf := (child_eq_some hq).2
    rw [surplus_forkCount l, surplus_forkPublish l h hf (h.child_running hq)]
    simp [forkPublish, Kernel.setPos]

theorem surplus_boot (l : ℤ) : surplus l (boot ncpu) = 0 := by
  have hw : slotWeight l bootProc = 0 := by
    simp [slotWeight, pending, share, bootProc, Proc.Ready]
  have h := tally_update (slotWeight l) (fun _ : Slot ↦ bootProc) initproc
    { bootProc with state := .runnable, pid := 1 }
  have hzero : tally (slotWeight l) (fun _ : Slot ↦ bootProc) = 0 := by simp [tally, hw]
  rw [hw, hzero] at h
  rw [surplus, boot]
  simp only [add_zero, zero_add] at h ⊢
  rw [h, slotWeight, share, pending]
  rcases eq_or_ne l 0 with rfl | hl
  · simp [bootProc, Proc.Ready]
  · simp [bootProc, Proc.Ready, hl, hl.symm]

/-- The states of the runs in which no increment is torn. -/
def ReachableUntorn (s : Kernel ncpu) : Prop :=
  ReachableBy step (· = boot ncpu) (fun m ↦ ¬Torn m) s

theorem ReachableUntorn.reachable (h : ReachableUntorn s) : Reachable s := ReachableBy.reachable h

theorem ReachableWhole.untorn (h : ReachableWhole s) : ReachableUntorn s := by
  refine ReachableBy.mono h fun m hwhole ↦ ?_
  rintro (⟨c, v, hact⟩ | ⟨c, q, np, n, hact, -⟩)
  · exact (hwhole c).2.2.2 v hact
  · exact (hwhole c).2.2.1 hact

/-- Every counter is off by exactly the forks between their last two statements. -/
theorem surplus_eq_zero (h : ReachableUntorn s) (l : ℤ) : surplus l s = 0 := by
  have hinv : Shape s ∧ surplus l s = 0 := by
    refine h.invariant (P := fun s ↦ Shape s ∧ surplus l s = 0) ?_ ?_
    · rintro s rfl
      exact ⟨.boot, surplus_boot l⟩
    · rintro s a t ⟨hs, hsur⟩ hstep huntorn
      exact ⟨hs.step hstep, (surplus_step hs hstep huntorn l).trans hsur⟩
  exact hinv.2

/-! ## What the counters count -/

/-- The slots `ninlevel[l]` should count. -/
def readyAt (s : Kernel ncpu) (l : ℤ) : Finset Slot :=
  Finset.univ.filter fun q ↦ (s.proc q).Ready ∧ (s.proc q).level = l

/-- The forks between their last two statements. -/
def forksBetween (s : Kernel ncpu) : Finset Slot :=
  Finset.univ.filter fun q ↦ (s.proc q).context.pos.Between

theorem surplus_eq (s : Kernel ncpu) (l : ℤ) :
    surplus l s = s.ninlevel l + (if l = 0 then ((forksBetween s).card : ℤ) else 0)
      - (readyAt s l).card := by
  have hsub : tally (slotWeight l) s.proc
      = tally (fun p ↦ pending l p.context.pos) s.proc - tally (share l) s.proc := by
    simp only [tally, slotWeight, Finset.sum_sub_distrib]
  have hshare : tally (share l) s.proc = (readyAt s l).card :=
    (cast_card_filter_eq_tally (fun p : Proc ↦ p.Ready ∧ p.level = l) s.proc).symm
  have hpending : tally (fun p ↦ pending l p.context.pos) s.proc
      = if l = 0 then ((forksBetween s).card : ℤ) else 0 := by
    rw [forksBetween, cast_card_filter_eq_tally (fun p : Proc ↦ p.context.pos.Between)]
    rcases eq_or_ne l 0 with rfl | hl
    · simp [pending]
    · simp [pending, hl, tally]
  rw [surplus, hsub, hshare, hpending]
  ring

/-- In every state that untorn increments lead to, and for every level. -/
theorem ninlevel_eq (h : ReachableUntorn s) (l : ℤ) :
    s.ninlevel l = (readyAt s l).card - if l = 0 then ((forksBetween s).card : ℤ) else 0 := by
  have hzero := surplus_eq_zero h l
  rw [surplus_eq] at hzero
  linarith

/-- The levels are indices of `ninlevel`, and every counter counts the RUNNABLE and RUNNING
processes of its level. -/
def Counted (s : Kernel ncpu) : Prop :=
  (∀ q, 0 ≤ (s.proc q).level ∧ (s.proc q).level < nlayer) ∧
    ∀ l : ℤ, 0 ≤ l → l < nlayer → s.ninlevel l = (readyAt s l).card

theorem counted_iff (h : ReachableUntorn s) :
    Counted s ↔ ∀ q, ¬(s.proc q).context.pos.Between := by
  have hempty : (∀ q, ¬(s.proc q).context.pos.Between) ↔ (forksBetween s).card = 0 := by
    simp [forksBetween]
  rw [hempty]
  constructor
  -- only the counter of level 0 can be off
  · rintro ⟨-, hcount⟩
    have h₀ := hcount 0 le_rfl (by decide)
    rw [ninlevel_eq h, if_pos rfl] at h₀
    omega
  · intro hnone
    refine ⟨(Shape.of_reachable h.reachable).level_mem, fun l _ _ ↦ ?_⟩
    rw [ninlevel_eq h, hnone]
    simp

/-- When the publication of a child is one step, no fork is seen between its two statements. -/
theorem ReachableWhole.not_between (h : ReachableWhole s) (q : Slot) :
    ¬(s.proc q).context.pos.Between := by
  refine h.invariant (P := fun s ↦ ∀ q, ¬(s.proc q).context.pos.Between) ?_ ?_ q
  · rintro s rfl q
    obtain ⟨_, _, hp⟩ := boot_proc ncpu q
    rw [hp]
    exact id
  · intro s a t hs hstep hwhole q
    rcases quiet_or_loud hstep with hquiet | hloud
    · exact fun hb ↦ hs q ((hquiet.slot q).between hb)
    · cases hloud with
      | @dispatch c ii p r hc hq =>
        rw [dispatch_proc]
        rcases eq_or_ne q r with rfl | hqr
        · rw [update_self]
          exact hs q
        · rw [update_of_ne hqr]
          exact hs q
      | @create c r np hr hnp =>
        rcases eq_or_ne q r with rfl | hqr
        · simp [Kernel.setPos]
        · rcases eq_or_ne q np with rfl | hqnp
          · simp [Kernel.setPos, hqr, Proc.embryo]
          · simpa [Kernel.setPos, hqr, hqnp] using hs q
      | @boost c r hl =>
        have hpos : (((checkStarveAndBoost s).setTrap r .yield).proc q).context.pos
            = (s.proc q).context.pos := by
          have hctx := (checkStarveAndBoost_frame (s := s) q).2
          rcases eq_or_ne q r with rfl | hqr
          · simp [Kernel.setTrap, hctx]
          · simp [Kernel.setTrap, hqr, hctx]
        rw [hpos]
        exact hs q
      -- the one move that a run with whole forks leaves out
      | publish hq => exact absurd rfl (hwhole _).1

/-- Over runs with whole forks the counters are right in every state. -/
theorem ReachableWhole.counted (h : ReachableWhole s) : Counted s :=
  (counted_iff h.untorn).mpr h.not_between

/-- **The level counters.** In a state in which no CPU holds `ptable.lock`, reached by a run that
tears no increment of a `fork`, they are right if and only if no fork stands between
`np->state = RUNNABLE` and the end of `ninlevel[0]++`. So runs in which these two statements are
never torn apart keep them right throughout. -/
theorem counted_iff_no_torn_fork (ncpu : ℕ) :
    (∀ s : Kernel ncpu, ReachableUntorn s → s.lock = none →
      (Counted s ↔ ∀ q, ¬(s.proc q).context.pos.Between)) ∧
    ∀ s : Kernel ncpu, ReachableWhole s → s.lock = none → Counted s :=
  ⟨fun _ h _ ↦ counted_iff h, fun _ h _ ↦ h.counted⟩

section Example

/-- The value that the increment of `fork` has loaded. -/
def loaded : Pos → Option ℤ
  | .store _ n => some n
  | _ => none

/-- What the increments of `fork` have loaded is in the counter. -/
def loadedIs (s : Kernel 1) : Bool := ∀ q, ∀ n ∈ loaded (s.proc q).context.pos, s.ninlevel 0 = n

theorem not_torn_of_loadedIs {m : Move (Kernel 1) (Act 1)} (h : loadedIs m.src)
    (hone : ∀ v, m.act ≠ .forkTorn 0 v) : ¬Torn m := by
  rintro (⟨c, v, hact⟩ | ⟨c, q, np, n, -, -, hpos, hne⟩)
  · exact hone v (Subsingleton.elim c 0 ▸ hact)
  · exact hne (of_decide_eq_true h q n (by rw [hpos]; rfl))

/-- The first process forks a child, which the scheduler runs for four ticks by turns with its
parent, until the parent is moved to level 1. -/
def demotion (publish : List (Act 1)) : List (Act 1) :=
  [.acquire 0, .scan 0, .resume 0, .allocproc 0] ++ publish ++
    (List.replicate 4 [.timer 0, .yield 0, .scan 0, .resume 0]).flatten

theorem demotion_replay : (loadedIs (boot 1) ∧
    (replayIn step loadedIs (demotion [.forkPublish 0, .forkLoad 0, .forkStore 0]) (boot 1)).map
      (fun s ↦ (s.lock, s.ninlevel 0, s.ninlevel 1)) = some (none, 1, 1)) ∧
    (replay step (demotion [.fork 0]) (boot 1)).map
      (fun s ↦ (s.lock, s.ninlevel 0, s.ninlevel 1)) = some (none, 1, 1) := by
  decide +kernel

theorem counted_demotion : ∃ s t : Kernel 1, s.ninlevel 1 = 1 ∧ t.ninlevel 1 = 1 ∧
    (Counted s ↔ ∀ q, ¬(s.proc q).context.pos.Between) ∧ Counted t := by
  obtain ⟨⟨hboot, hsplit⟩, hwhole⟩ := demotion_replay
  obtain ⟨s, hs, hval⟩ := Option.map_eq_some_iff.mp hsplit
  obtain ⟨t, ht, hval'⟩ := Option.map_eq_some_iff.mp hwhole
  obtain ⟨hlock, -, hone⟩ : s.lock = none ∧ s.ninlevel 0 = 1 ∧ s.ninlevel 1 = 1 := by
    simpa using hval
  obtain ⟨hlock', -, hone'⟩ : t.lock = none ∧ t.ninlevel 0 = 1 ∧ t.ninlevel 1 = 1 := by
    simpa using hval'
  obtain ⟨tr, hrun, hacts, hok⟩ := exists_run_of_replayIn hs
  have hsrc := (hrun.src_of_dst (P := fun s ↦ loadedIs s) hboot hok).2
  have huntorn : ReachableUntorn s := by
    refine ⟨_, tr, rfl, hrun, fun m hm ↦ not_torn_of_loadedIs (hsrc m hm) fun v hv ↦ ?_⟩
    have hact := List.mem_map_of_mem (f := Move.act) hm
    rw [hacts, hv] at hact
    simp [demotion] at hact
  have hreach : ReachableWhole t := reachableWhole_of_replay ht (by simp [demotion, Act.Whole])
  exact ⟨s, t, hone, hone', (counted_iff_no_torn_fork 1).1 s huntorn hlock,
    (counted_iff_no_torn_fork 1).2 t hreach hlock'⟩

end Example

/-! ## A torn fork -/

/-- The first process is dispatched and forks; the timer preempts it between the last two
statements of `fork`, and the scheduler picks it again. -/
def tornFork : List (Act 1) :=
  [.acquire 0, .scan 0, .resume 0, .allocproc 0, .forkPublish 0, .timer 0, .yield 0, .scan 0,
    .resume 0]

/-- With the lock free again, two processes are RUNNABLE or RUNNING at level 0 and the counter
says one. -/
theorem not_counted_after_torn_fork :
    ¬∀ s : Kernel 1, Reachable s → s.lock = none → Counted s := by
  intro hall
  have hrun : (replay step tornFork (boot 1)).map
      (fun s ↦ (s.lock, s.ninlevel 0, (readyAt s 0).card)) = some (none, 1, 2) := by
    decide +kernel
  obtain ⟨s, hs, hval⟩ := Option.map_eq_some_iff.mp hrun
  obtain ⟨hlock, hcount, hcard⟩ : s.lock = none ∧ s.ninlevel 0 = 1 ∧ (readyAt s 0).card = 2 := by
    simpa using hval
  have hzero := (hall s (reachable_of_replay hs) hlock).2 0 le_rfl (by decide)
  rw [hcount, hcard] at hzero
  simp at hzero

end CS537.Mlfq
