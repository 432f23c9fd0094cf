import CS537.Mlfq.Countdown
import CS537.Mlfq.Lives
import CS537.Mlfq.Pinfo

/-!
# The two schedulers agree

Between two boosts the counter of the older kernel is what the newer one's counter of the level
leaves of the slice, as long as that counter does not wrap. The rest of the table is the same: what
does not read the ticks does the same to a table with and without them.
-/

namespace CS537.Mlfq

open Function Transition Wrapping

variable {ncpu : ℕ} {s t : Kernel ncpu} {a : Act ncpu} {slice : ℤ → ℕ}

/-! ## A table without ticks -/

def Proc.untick (p : Proc) : Proc := { p with timeticks := fun _ ↦ 0 }

/-- The kernel with all its ticks at 0. -/
def Kernel.untick (s : Kernel ncpu) : Kernel ncpu :=
  { s with
    proc := fun i ↦ (s.proc i).untick
    lastTicks := fun _ _ ↦ 0 }

section Untick

variable (s) (c : Fin ncpu) (q np : Slot)

theorem untick_setProc (p : Proc) : (s.setProc q p).untick = s.untick.setProc q p.untick := by
  rw [Kernel.setProc, Kernel.untick, Kernel.setProc, Kernel.untick]
  congr 1
  exact comp_update Proc.untick s.proc q p

theorem untick_embryo (p : Proc) (pid : ℤ) : (p.embryo pid).untick = p.untick.embryo pid := by
  rw [Proc.embryo, Proc.embryo, Proc.untick, Proc.untick]
  simp only [ite_self]

theorem untick_addLevel (l d : ℤ) : (s.addLevel l d).untick = s.untick.addLevel l d := rfl

theorem untick_setCpu (x : Cpu) : (s.setCpu c x).untick = s.untick.setCpu c x := rfl

theorem untick_setLock (x : Option (Fin ncpu)) : (s.setLock x).untick = s.untick.setLock x := rfl

theorem untick_setPos (x : Pos) : (s.setPos q x).untick = s.untick.setPos q x :=
  untick_setProc s q _

theorem untick_setTrap (x : TrapPos) : (s.setTrap q x).untick = s.untick.setTrap q x :=
  untick_setProc s q _

theorem untick_setChan (x : Option Chan) : (s.setChan q x).untick = s.untick.setChan q x :=
  untick_setProc s q _

theorem untick_sched : (sched c s).untick = sched c s.untick := by
  have hcpu : s.untick.cpu c = s.cpu c := rfl
  rw [sched, sched, hcpu]
  cases s.cpu c with
  | idle | scan | running => rfl

theorem untick_wakeOne (chan : Chan) : (wakeOne chan s q).untick = wakeOne chan s.untick q := by
  rw [wakeOne, wakeOne]
  refine (apply_ite Kernel.untick _ _ _).trans (if_congr Iff.rfl ?_ rfl)
  rw [untick_addLevel, untick_setProc]
  rfl

theorem untick_wakeup1 (chan : Chan) : (wakeup1 chan s).untick = wakeup1 chan s.untick := by
  rw [wakeup1, wakeup1]
  exact (List.foldl_hom Kernel.untick fun s q ↦ (untick_wakeOne s q chan).symm).symm

theorem untick_sleepAs (x : Pos) (chan : Chan) :
    (sleepAs x chan c q s).untick = sleepAs x chan c q s.untick := by
  rw [sleepAs, sleepAs, untick_sched, untick_addLevel, untick_setProc]
  rfl

theorem untick_yield : (yield c q s).untick = yield c q s.untick := by
  rw [yield, yield, untick_sched, untick_setProc]
  rfl

theorem untick_kill (pid : ℤ) : (kill pid s).untick = kill pid s.untick := by
  rw [kill, kill]
  have hfind : slots.find? (fun q ↦ (s.untick.proc q).pid = pid) =
      slots.find? fun q ↦ (s.proc q).pid = pid := rfl
  rw [hfind]
  cases slots.find? fun q ↦ (s.proc q).pid = pid with
  | none => rfl
  | some q =>
    refine (apply_ite Kernel.untick _ _ _).trans (if_congr Iff.rfl ?_ (untick_setProc s q _))
    rw [untick_addLevel, untick_setProc]
    rfl

theorem untick_reparentOne (p : Slot) :
    (reparentOne q s p).untick = reparentOne q s.untick p := by
  have hset : (s.setProc p { s.proc p with parent := some initproc }).untick =
      s.untick.setProc p { s.untick.proc p with parent := some initproc } := untick_setProc s p _
  rw [reparentOne, reparentOne]
  refine (apply_ite Kernel.untick _ _ _).trans (if_congr Iff.rfl ?_ rfl)
  rw [← hset]
  refine (apply_ite Kernel.untick _ _ _).trans (if_congr Iff.rfl ?_ rfl)
  exact untick_wakeup1 _ _

theorem untick_exit : (exit c q s).untick = exit c q s.untick := by
  have hwake : (wakeParent q s).untick = wakeParent q s.untick := by
    have hparent : (s.untick.proc q).parent = (s.proc q).parent := rfl
    rw [wakeParent, wakeParent, hparent]
    cases (s.proc q).parent with
    | none => rfl
    | some pp => exact untick_wakeup1 s _
  have habandon : (abandonChildren q (wakeParent q s)).untick =
      abandonChildren q (wakeParent q s.untick) := by
    rw [abandonChildren, abandonChildren, ← hwake]
    exact (List.foldl_hom Kernel.untick fun s p ↦ (untick_reparentOne s q p).symm).symm
  rw [exit, exit, becomeZombie, becomeZombie, untick_sched, untick_addLevel, untick_setProc,
    habandon]
  rw [← habandon]
  rfl

theorem untick_wait : (wait c q s).untick = wait c q s.untick := by
  have hscan : waitScan q s.untick = waitScan q s := rfl
  rw [wait, wait, hscan]
  cases waitScan q s with
  | reap p pid =>
    simp only
    rw [untick_setLock, untick_setProc]
    rfl
  | fail => rfl
  | block => exact untick_sleepAs s c q .wait (.proc q)

theorem untick_resume : (resume c q s).untick = resume c q s.untick := by
  have hpos : (s.untick.proc q).context.pos = (s.proc q).context.pos := rfl
  rw [resume, resume, hpos]
  cases (s.proc q).context.pos with
  | forkret =>
    simp only
    rw [untick_setLock, untick_setPos]
  | sleep =>
    simp only
    rw [untick_setLock, untick_setPos, untick_setChan]
  | wait =>
    simp only
    rw [untick_wait, untick_setPos, untick_setChan]
  | user | copy | count | store =>
    simp only
    rw [untick_setLock, untick_setTrap]

theorem untick_timer : (timer q s).untick = timer q s.untick := by
  have hclock : s.untick.starveClock = s.starveClock := rfl
  rw [timer, timer, hclock]
  refine (apply_ite Kernel.untick _ _ _).trans (if_congr Iff.rfl ?_ ?_)
  · exact untick_setTrap _ q .boost
  · exact untick_setTrap _ q .yield

theorem untick_forkFail : (forkFail q np s).untick = forkFail q np s.untick := by
  rw [forkFail, forkFail, untick_setPos, untick_setProc]
  rfl

theorem untick_forkPublish : (forkPublish q np s).untick = forkPublish q np s.untick := by
  rw [forkPublish, forkPublish, untick_setPos, untick_setProc]
  rfl

theorem untick_forkCount : (forkCount q s).untick = forkCount q s.untick :=
  untick_setPos _ q .user

theorem untick_forkLoad : (forkLoad q np s).untick = forkLoad q np s.untick :=
  untick_setPos s q _

theorem untick_forkStore (v : ℤ) : (forkStore q v s).untick = forkStore q v s.untick :=
  untick_setPos _ q .user

end Untick

/-- The moves that neither read nor write the ticks. -/
def Act.Shared (a : Act ncpu) : Prop := ∀ c, a ≠ .scan c ∧ a ≠ .allocproc c ∧ a ≠ .boost c

theorem guard_untick {p : Prop} [Decidable p] {u : Kernel ncpu} (h : t.untick = u) :
    (if p then some u else none) = (if p then some t else none).map Kernel.untick := by
  rw [apply_ite (Option.map Kernel.untick), Option.map_some, h]
  rfl

theorem map_untick {α : Type} (x : Option α) {f g : α → Kernel ncpu}
    (h : ∀ q, (f q).untick = g q) : x.map g = (x.map f).map Kernel.untick := by
  rw [Option.map_map]
  exact congrArg (Option.map · x) (funext fun q ↦ (h q).symm)

theorem bind_untick {α : Type} (x : Option α) {f g : α → Option (Kernel ncpu)}
    (h : ∀ q, g q = (f q).map Kernel.untick) : (x >>= g) = (x >>= f).map Kernel.untick := by
  cases x with
  | none => rfl
  | some q => exact h q

/-- The shared moves do the same to a table without ticks. -/
theorem step_untick (s : Kernel ncpu) (ha : a.Shared) :
    step a s.untick = (step a s).map Kernel.untick := by
  cases a with
  | scan c => exact absurd rfl (ha c).1
  | allocproc c => exact absurd rfl (ha c).2.1
  | boost c => exact absurd rfl (ha c).2.2
  | acquire c => exact guard_untick rfl
  | resume c =>
    have hcpu : s.untick.cpu c = s.cpu c := rfl
    rw [step, step, Cumulative.step, Cumulative.step, hcpu]
    cases s.cpu c with
    | idle | scan => rfl
    | running q ii p => exact guard_untick (untick_resume s c q)
  | timer c => exact map_untick (s.interruptible c) fun q ↦ untick_timer s q
  | yield c => exact bind_untick (s.current c) fun q ↦ guard_untick (untick_yield s c q)
  | sleep c chan =>
    exact bind_untick (s.caller c) fun q ↦ guard_untick (untick_sleepAs s c q .sleep chan)
  | wakeup c chan => exact guard_untick (untick_wakeup1 s chan)
  | exit c => exact bind_untick (s.caller c) fun q ↦ guard_untick (untick_exit s c q)
  | wait c => exact bind_untick (s.caller c) fun q ↦ guard_untick (untick_wait s c q)
  | kill c pid => exact bind_untick (s.caller c) fun q ↦ guard_untick (untick_kill s pid)
  | fault c => exact map_untick (s.caller c) fun q ↦ untick_setProc s q _
  | forkFail c => exact map_untick (s.child c) fun p ↦ untick_forkFail s p.1 p.2
  | forkPublish c => exact map_untick (s.child c) fun p ↦ untick_forkPublish s p.1 p.2
  | forkLoad c =>
    refine bind_untick (s.interruptible c) fun q ↦ ?_
    have hpos : (s.untick.proc q).context.pos = (s.proc q).context.pos := rfl
    rw [hpos]
    cases (s.proc q).context.pos with
    | count np => exact congrArg some (untick_forkLoad s q np).symm
    | forkret | user | sleep | wait | copy | store => rfl
  | forkStore c =>
    refine bind_untick (s.interruptible c) fun q ↦ ?_
    have hpos : (s.untick.proc q).context.pos = (s.proc q).context.pos := rfl
    rw [hpos]
    cases (s.proc q).context.pos with
    | store np n => exact congrArg some (untick_forkStore s q (n + 1)).symm
    | forkret | user | sleep | wait | copy | count => rfl
  | forkTorn c v =>
    refine bind_untick (s.interruptible c) fun q ↦ ?_
    have hpos : (s.untick.proc q).context.pos = (s.proc q).context.pos := rfl
    rw [hpos]
    cases (s.proc q).context.pos with
    | store np n => exact guard_untick (untick_forkStore s q v)
    | forkret | user | sleep | wait | copy | count => rfl
  | fork c =>
    refine map_untick (s.child c) fun p ↦ ?_
    rw [untick_forkCount, untick_forkPublish]

/-! ## The relation -/

/-- What the count-down leaves of the slice. Below its level a process has not been yet. -/
def Matches (slice : ℤ → ℕ) (tt : ℤ) (p : Proc) : Prop :=
  tt = slice p.level - p.timeticks p.level % slice p.level ∧
    (0 ≤ p.timeticks p.level ∧ p.timeticks p.level < 2 ^ 31) ∧
      ∀ l : ℤ, p.level < l → l < nlayer → p.timeticks l = 0

/-- The tables are the same but for the ticks, and those match. -/
structure Agree (slice : ℤ → ℕ) (o : Countdown ncpu) (n : Kernel ncpu) : Prop where
  shape : Shape n
  kernel : o.kernel = n.untick
  slot : ∀ i, (n.proc i).state ≠ .unused → Matches slice (o.timeticks i) (n.proc i)

variable {o o' : Countdown ncpu} {n n' : Kernel ncpu} {i : Slot}

theorem Matches.congr {tt : ℤ} {p p' : Proc} (h : Matches slice tt p) (hlevel : p'.level = p.level)
    (hticks : p'.timeticks = p.timeticks) : Matches slice tt p' := by
  rwa [Matches, hlevel, hticks]

/-- A move that touches the ticks of no process. -/
theorem Agree.frame (h : Agree slice o n) (hshape : Shape n') (hkernel : o'.kernel = n'.untick)
    (hticks : o'.timeticks = o.timeticks)
    (hslot : ∀ i, (n'.proc i).level = (n.proc i).level ∧
      (n'.proc i).timeticks = (n.proc i).timeticks ∧
      ((n'.proc i).state ≠ .unused → (n.proc i).state ≠ .unused)) : Agree slice o' n' := by
  refine ⟨hshape, hkernel, fun i hi ↦ ?_⟩
  obtain ⟨hlevel, htt, hused⟩ := hslot i
  rw [hticks]
  exact (h.slot i (hused hi)).congr hlevel htt

/-- A move that touches the ticks of one process. -/
theorem Agree.charge (h : Agree slice o n) (hshape : Shape n') (hkernel : o'.kernel = n'.untick)
    {tt : ℤ} (hticks : o'.timeticks = update o.timeticks i tt)
    (hown : Matches slice tt (n'.proc i))
    (hslot : ∀ j ≠ i, (n'.proc j).level = (n.proc j).level ∧
      (n'.proc j).timeticks = (n.proc j).timeticks ∧ (n'.proc j).state = (n.proc j).state) :
    Agree slice o' n' := by
  refine ⟨hshape, hkernel, fun j hj ↦ ?_⟩
  rw [hticks]
  rcases eq_or_ne j i with rfl | hne
  · rwa [update_self]
  · obtain ⟨hlevel, htt, hstate⟩ := hslot j hne
    rw [update_of_ne hne]
    exact (h.slot j (hstate ▸ hj)).congr hlevel htt

section Fields

theorem Agree.proc (h : Agree slice o n) (i : Slot) : o.kernel.proc i = (n.proc i).untick := by
  rw [h.kernel]
  rfl

theorem Agree.context (h : Agree slice o n) (i : Slot) :
    (o.kernel.proc i).context = (n.proc i).context := by
  rw [h.proc]
  rfl

theorem Agree.cpu (h : Agree slice o n) (c : Fin ncpu) : o.kernel.cpu c = n.cpu c := by
  rw [h.kernel]
  rfl

theorem Agree.lock (h : Agree slice o n) : o.kernel.lock = n.lock := by
  rw [h.kernel]
  rfl

theorem Agree.current (h : Agree slice o n) (c : Fin ncpu) :
    o.kernel.current c = n.current c := by
  rw [h.kernel]
  rfl

theorem Agree.caller (h : Agree slice o n) (c : Fin ncpu) : o.kernel.caller c = n.caller c := by
  rw [h.kernel]
  rfl

end Fields

/-! ## One move -/

/-- A shared move does nothing to the ticks and takes no free slot into use. -/
theorem shared_frame (hs : Shape n) (ha : a.Shared) (hstep : step a n = some n') (i : Slot) :
    (n'.proc i).level = (n.proc i).level ∧ (n'.proc i).timeticks = (n.proc i).timeticks ∧
      ((n'.proc i).state ≠ .unused → (n.proc i).state ≠ .unused) := by
  have hcreate : ¬Creates ⟨n, a, n'⟩ i := by
    intro hc
    obtain ⟨c, q, rfl, -⟩ := creates_inv hstep hc
    exact (ha c).2.1 rfl
  have hused : (n'.proc i).state ≠ .unused → (n.proc i).state ≠ .unused := by
    intro hi
    rcases pid_step hs hstep hi with ⟨hu, -⟩ | hc
    · exact hu
    · exact absurd hc hcreate
  cases (slotMove hstep (fun c ↦ (ha c).2.2) i).1 with
  | same hlevel hticks => exact ⟨hlevel, hticks, hused⟩
  | dispatch _ hd =>
    obtain ⟨c, ii, p, rfl, -⟩ := dispatches_inv hstep hd
    exact absurd rfl (ha c).1
  | create hc => exact absurd hc hcreate

/-- One more tick, within the slice or at its end. -/
theorem succ_mod_cases {q : ℤ} (hq : 0 < q) (tt : ℤ) :
    (tt + 1) % q = 0 ∧ tt % q + 1 = q ∨ (tt + 1) % q = tt % q + 1 ∧ tt % q + 1 < q := by
  have hlt := Int.emod_lt_of_pos tt hq
  have hnonneg := Int.emod_nonneg tt hq.ne'
  rw [← Int.emod_add_emod]
  rcases lt_or_ge (tt % q + 1) q with h | h
  · exact Or.inr ⟨Int.emod_eq_of_lt (by omega) h, h⟩
  · have heq : tt % q + 1 = q := by omega
    exact Or.inl ⟨by rw [heq, Int.emod_self], heq⟩

/-- A table of positive slices. -/
def Positive (slice : ℤ → ℕ) : Prop := ∀ l : ℤ, 0 ≤ l → l < nlayer → 0 < slice l

theorem Agree.addLevel (h : Agree slice o n) (l d : ℤ) :
    Agree slice { o with kernel := o.kernel.addLevel l d } (n.addLevel l d) :=
  h.frame (h.shape.addLevel l d) (congrArg (Kernel.addLevel · l d) h.kernel) rfl
    fun _ ↦ ⟨rfl, rfl, id⟩

/-- A process starts to run with new ticks. -/
theorem Agree.enter (h : Agree slice o n) {c : Fin ncpu} {ii ii' : ℤ} {k k' : ℕ}
    (hc : n.cpu c = .scan ii k) (hi : (n.proc i).state = .runnable) {p : Proc}
    (hstate : p.state = .running) (hlevel : 0 ≤ p.level ∧ p.level < nlayer)
    (hctx : p.context = (n.proc i).context) {tt : ℤ} (hown : Matches slice tt p) :
    Agree slice { o with
      kernel := (o.kernel.setProc i p.untick).setCpu c (.running i ii' k')
      timeticks := update o.timeticks i tt } ((n.setProc i p).setCpu c (.running i ii' k')) := by
  refine h.charge (h.shape.enter hc hi hstate hlevel hctx) ?_ rfl ?_ fun j hj ↦ ?_
  · rw [untick_setCpu, untick_setProc, h.kernel]
  · rwa [setCpu_proc, setProc_proc, update_self]
  · rw [setCpu_proc, setProc_proc, update_of_ne hj]
    exact ⟨rfl, rfl, rfl⟩

theorem Agree.dispatch (h : Agree slice o n) (hpos : Positive slice) {c : Fin ncpu} {ii : ℤ}
    {k : ℕ} (hc : n.cpu c = .scan ii k) (hi : (n.proc i).state = .runnable)
    (hmax : (n.proc i).timeticks (n.proc i).level ≠ 2 ^ 31 - 1) :
    Agree slice (Countdown.dispatch slice c i ii o) (Cumulative.dispatch slice c i ii n) := by
  have hmem := h.shape.level_mem i
  obtain ⟨htt, hrange, hfresh⟩ := h.slot i (by rw [hi]; decide)
  have hlevel : (n.proc i).untick.level = (n.proc i).level := rfl
  rw [Countdown.dispatch, Cumulative.dispatch, h.proc]
  simp only [hlevel]
  rw [toInt32_of_range (by omega) (by omega)]
  -- the ticks after the dispatch, at its level and at the levels below
  have hown : update (n.proc i).timeticks (n.proc i).level
      ((n.proc i).timeticks (n.proc i).level + 1) (n.proc i).level =
      (n.proc i).timeticks (n.proc i).level + 1 := update_self _ _ _
  have hbelow : ∀ l, (n.proc i).level < l → l < nlayer → update (n.proc i).timeticks
      (n.proc i).level ((n.proc i).timeticks (n.proc i).level + 1) l = 0 := by
    intro l hl hl'
    rw [update_of_ne (by omega)]
    exact hfresh l hl hl'
  generalize update (n.proc i).timeticks (n.proc i).level
    ((n.proc i).timeticks (n.proc i).level + 1) = ticked at hown hbelow ⊢
  have hslice := hpos _ hmem.1 hmem.2
  rcases succ_mod_cases (Int.natCast_pos.mpr hslice) ((n.proc i).timeticks (n.proc i).level) with
    ⟨hzero, hlast⟩ | ⟨hsucc, hlt⟩
  · rw [if_neg (not_not.mpr hzero), if_neg (show ¬o.timeticks i - 1 ≠ 0 by omega)]
    split_ifs with hlow
    · have hnext : 0 ≤ (n.proc i).level + 1 ∧ (n.proc i).level + 1 < nlayer := by omega
      have hfirst := hbelow ((n.proc i).level + 1) (by omega) (by omega)
      refine ((h.addLevel _ _).addLevel _ _).enter (p := { n.proc i with
        state := .running
        level := (n.proc i).level + 1
        timeticks := ticked }) hc hi rfl hnext rfl
        ⟨?_, ?_, fun l (hl : (n.proc i).level + 1 < l) hl' ↦ ?_⟩
      · -- the slice of the next level has not been touched
        change _ = (slice ((n.proc i).level + 1) : ℤ) -
          ticked ((n.proc i).level + 1) % slice ((n.proc i).level + 1)
        rw [hfirst, Int.zero_emod, sub_zero]
      · change 0 ≤ ticked ((n.proc i).level + 1) ∧ ticked ((n.proc i).level + 1) < 2 ^ 31
        rw [hfirst]
        decide
      · exact hbelow l (by omega) hl'
    · refine h.enter (p := { n.proc i with state := .running, timeticks := ticked }) hc hi rfl hmem
        rfl ⟨?_, ?_, hbelow⟩
      · change _ = (slice (n.proc i).level : ℤ) - ticked (n.proc i).level % slice _
        rw [hown, hzero, sub_zero]
      · change 0 ≤ ticked (n.proc i).level ∧ ticked (n.proc i).level < 2 ^ 31
        omega
  · have hne : ((n.proc i).timeticks (n.proc i).level + 1) % slice (n.proc i).level ≠ 0 := by
      have hnonneg := Int.emod_nonneg ((n.proc i).timeticks (n.proc i).level)
        (Int.natCast_ne_zero.mpr hslice.ne')
      omega
    rw [if_pos (show o.timeticks i - 1 ≠ 0 by omega), if_pos hne]
    refine h.enter (p := { n.proc i with state := .running, timeticks := ticked }) hc hi rfl hmem
      rfl ⟨?_, ?_, hbelow⟩
    · change _ = (slice (n.proc i).level : ℤ) - ticked (n.proc i).level % slice _
      rw [hown, hsucc, htt]
      omega
    · change 0 ≤ ticked (n.proc i).level ∧ ticked (n.proc i).level < 2 ^ 31
      omega

theorem dispatch_state (c : Fin ncpu) (i : Slot) (ii : ℤ) (n : Kernel ncpu) :
    ((Cumulative.dispatch slice c i ii n).proc i).state = .running := by
  rw [Cumulative.dispatch]
  split_ifs
  · exact congrArg Proc.state (update_self i _ n.proc)
  · exact congrArg Proc.state (update_self i _ n.proc)
  · exact congrArg Proc.state (update_self i _ n.proc)

theorem Agree.schedulerStep (h : Agree slice o n) (hpos : Positive slice) {c : Fin ncpu} {ii : ℤ}
    {k : ℕ} (hc : n.cpu c = .scan ii k)
    (hover : ∀ i, ¬Overflows ⟨n, .scan c, Cumulative.schedulerStep slice c ii k n⟩ i) :
    Agree slice (Countdown.schedulerStep slice c ii k o)
      (Cumulative.schedulerStep slice c ii k n) := by
  have hiter : iterate o.kernel.proc o.kernel.ninlevel ii k = iterate n.proc n.ninlevel ii k := by
    rw [h.kernel]
    rfl
  rw [Cumulative.schedulerStep] at hover
  rw [Countdown.schedulerStep, Cumulative.schedulerStep, hiter]
  cases hit : iterate n.proc n.ninlevel ii k with
  | next ii' k' =>
    exact h.frame (h.shape.moveOn hc (by simp) (by simp))
      (congrArg (Kernel.setCpu · c (.scan ii' k')) h.kernel) rfl fun _ ↦ ⟨rfl, rfl, id⟩
  | dispatch i =>
    have hi := (iterate_dispatch hit).1
    rw [hit] at hover
    exact h.dispatch hpos hc hi fun hmax ↦ hover i ⟨⟨hi, dispatch_state c i ii n⟩, hmax⟩
  | release =>
    exact h.frame (h.shape.release hc)
      (congrArg (fun s ↦ (Kernel.setCpu s c .idle).setLock none) h.kernel) rfl
      fun _ ↦ ⟨rfl, rfl, id⟩

theorem Agree.allocproc (h : Agree slice o n) {q : Slot} (hq : (n.proc q).state = .running) :
    Agree slice (Countdown.allocproc slice q o) (allocproc q n) := by
  have hshape := h.shape.allocproc hq
  have hfind : slots.find? (fun p ↦ (o.kernel.proc p).state = .unused) =
      slots.find? fun p ↦ (n.proc p).state = .unused := by
    rw [h.kernel]
    rfl
  rw [Mlfq.allocproc] at hshape ⊢
  rw [Countdown.allocproc, hfind]
  cases hnp : slots.find? fun p ↦ (n.proc p).state = .unused with
  | none => exact h
  | some np =>
    rw [hnp] at hshape
    simp only at hshape ⊢
    -- the caller has only moved on to the next statement
    have hpos : ∀ j, (((n.setProc np ((n.proc np).embryo n.nextpid)).bumpPid.setPos q
        (.copy np)).proc j).level = (update n.proc np ((n.proc np).embryo n.nextpid) j).level ∧
        (((n.setProc np ((n.proc np).embryo n.nextpid)).bumpPid.setPos q
        (.copy np)).proc j).timeticks =
          (update n.proc np ((n.proc np).embryo n.nextpid) j).timeticks ∧
        (((n.setProc np ((n.proc np).embryo n.nextpid)).bumpPid.setPos q
        (.copy np)).proc j).state = (update n.proc np ((n.proc np).embryo n.nextpid) j).state :=
      fun j ↦ ⟨setPos_level q j _, setProc_timeticks (by rfl) j, setPos_state q j _⟩
    refine h.charge hshape ?_ rfl ?_ fun j hj ↦ ?_
    · rw [untick_setPos, h.kernel]
      exact congrArg (fun s ↦ (Kernel.bumpPid s).setPos q (.copy np)) ((untick_setProc n np _).trans
        (congrArg (n.untick.setProc np) (untick_embryo _ _))).symm
    · obtain ⟨hlevel, htt, -⟩ := hpos np
      rw [update_self] at hlevel htt
      have hzero : ∀ l : ℤ, 0 ≤ l → l < nlayer → ((n.proc np).embryo n.nextpid).timeticks l = 0 :=
        fun l hl hl' ↦ if_pos ⟨hl, hl'⟩
      have hfirst := hzero 0 le_rfl (by decide)
      refine Matches.congr (p := (n.proc np).embryo n.nextpid) ⟨?_, ?_, fun l hl ↦ ?_⟩ hlevel htt
      · change _ = (slice 0 : ℤ) - ((n.proc np).embryo n.nextpid).timeticks 0 % slice 0
        rw [hfirst, Int.zero_emod, sub_zero]
      · change 0 ≤ ((n.proc np).embryo n.nextpid).timeticks 0 ∧
          ((n.proc np).embryo n.nextpid).timeticks 0 < 2 ^ 31
        rw [hfirst]
        decide
      · exact hzero l (le_of_lt hl)
    · have hj' := hpos j
      rw [update_of_ne hj] at hj'
      exact hj'

/-- Nobody RUNNABLE is starved, for neither kernel. -/
def Calm (o : Countdown ncpu) (n : Kernel ncpu) (i : Slot) : Prop :=
  (n.proc i).state = .runnable → ¬Countdown.Starved i o ∧ ¬Starved i n

theorem Agree.takeSnapshot (h : Agree slice o n) (i : Slot) :
    Agree slice (Countdown.takeSnapshot i o) (takeSnapshot i n) := by
  refine h.frame (h.shape.takeSnapshot i) ?_ rfl fun _ ↦ ⟨rfl, rfl, id⟩
  rw [Countdown.takeSnapshot, h.kernel]
  rfl

/-- The snapshot of one slot says nothing about the others. -/
theorem Calm.takeSnapshot {j : Slot} (h : Calm o n j) (hne : j ≠ i) :
    Calm (Countdown.takeSnapshot i o) (takeSnapshot i n) j := by
  intro hrun
  obtain ⟨ho, hn⟩ := h hrun
  refine ⟨fun hs ↦ ho ?_, fun hs ↦ hn ?_⟩
  · rw [Countdown.Starved, Countdown.takeSnapshot] at hs
    simp only [update_of_ne hne] at hs
    exact hs
  · rw [Starved, Mlfq.takeSnapshot] at hs
    simp only [update_of_ne hne] at hs
    exact hs

/-- A check that boosts nobody. -/
theorem Agree.check (l : List Slot) (hl : l.Nodup) (h : Agree slice o n)
    (hcalm : ∀ i ∈ l, Calm o n i) :
    Agree slice (l.foldl (Countdown.boostOne slice) o) (l.foldl (Cumulative.boostOne slice) n) := by
  induction l generalizing o n with
  | nil => exact h
  | cons i l ih =>
    obtain ⟨hi, hl⟩ := List.nodup_cons.mp hl
    rw [List.foldl_cons, List.foldl_cons, Countdown.boostOne, Cumulative.boostOne]
    have hstate : (o.kernel.proc i).state = (n.proc i).state := by
      rw [h.kernel]
      rfl
    rw [hstate]
    by_cases hrun : (n.proc i).state = .runnable
    · obtain ⟨ho, hn⟩ := hcalm i List.mem_cons_self hrun
      rw [if_neg (not_not.mpr hrun), if_neg (not_not.mpr hrun), if_neg ho, if_neg hn]
      refine ih hl (h.takeSnapshot i) fun j hj ↦ ?_
      exact (hcalm j (List.mem_cons_of_mem _ hj)).takeSnapshot fun heq ↦ hi (heq ▸ hj)
    · rw [if_pos hrun, if_pos hrun]
      exact ih hl h fun j hj ↦ hcalm j (List.mem_cons_of_mem _ hj)

theorem countdown_step_of_shared (ha : a.Shared) (o : Countdown ncpu) :
    Countdown.step slice a o = (step a o.kernel).map fun k ↦ { o with kernel := k } := by
  cases a with
  | scan c => exact absurd rfl (ha c).1
  | allocproc c => exact absurd rfl (ha c).2.1
  | boost c => exact absurd rfl (ha c).2.2
  | acquire | resume | timer | yield | sleep | wakeup | exit | wait | kill | fault | forkFail
  | forkPublish | forkLoad | forkStore | forkTorn | fork => rfl

theorem cumulative_step_of_shared (ha : a.Shared) (n : Kernel ncpu) :
    Cumulative.step slice a n = step a n := by
  cases a with
  | scan c => exact absurd rfl (ha c).1
  | boost c => exact absurd rfl (ha c).2.2
  | acquire | resume | timer | yield | sleep | wakeup | exit | wait | kill | fault | allocproc
  | forkFail | forkPublish | forkLoad | forkStore | forkTorn | fork => rfl

/-- Only the layer loop dispatches, and only the slot it has come to. -/
theorem cumulative_dispatches_inv {u v : Kernel ncpu} {q : Slot} (ha : ∀ c, a ≠ .boost c)
    (hstep : Cumulative.step slice a u = some v) (hd : Dispatches ⟨u, a, v⟩ q) :
    ∃ c ii, u.cpu c = .scan ii q := by
  by_cases hscan : ∃ c, a = .scan c
  · obtain ⟨c, rfl⟩ := hscan
    obtain ⟨hsrc, hdst⟩ : (u.proc q).state = .runnable ∧ (v.proc q).state = .running := hd
    rw [Cumulative.step] at hstep
    split at hstep
    · next ii k hc =>
      obtain rfl := Option.some.inj hstep
      refine ⟨c, ii, ?_⟩
      rw [Cumulative.schedulerStep] at hdst
      cases hit : iterate u.proc u.ninlevel ii k with
      | next | release =>
        rw [hit] at hdst
        have hrun : (u.proc q).state = .running := hdst
        rw [hsrc] at hrun
        cases hrun
      | dispatch r =>
        rw [hit] at hdst
        obtain rfl : q = r := by
          by_contra hne
          have hother : (Cumulative.dispatch slice c r ii u).proc q = u.proc q := by
            rw [Cumulative.dispatch]
            split_ifs
            · exact update_of_ne hne _ u.proc
            · exact update_of_ne hne _ u.proc
            · exact update_of_ne hne _ u.proc
          rw [hother, hsrc] at hdst
          cases hdst
        rw [hc, (iterate_dispatch hit).2.2.2]
    · cases hstep
  · -- the other moves are those of the kernel with its own slices
    have hsame : step a u = some v := by
      cases a with
      | scan c => exact absurd ⟨c, rfl⟩ hscan
      | boost c => exact absurd rfl (ha c)
      | acquire | resume | timer | yield | sleep | wakeup | exit | wait | kill | fault | allocproc
      | forkFail | forkPublish | forkLoad | forkStore | forkTorn | fork => exact hstep
    obtain ⟨c, ii, k, hc, -⟩ := dispatches_inv hsame hd
    exact absurd ⟨c, hc⟩ hscan

theorem Agree.step_shared (h : Agree slice o n) (ha : a.Shared) :
    Option.Rel (Agree slice) (Countdown.step slice a o) (Cumulative.step slice a n) := by
  rw [countdown_step_of_shared ha, cumulative_step_of_shared ha, h.kernel, step_untick n ha]
  cases hn : step a n with
  | none => exact .none
  | some n' =>
    refine .some (h.frame (h.shape.step hn) rfl rfl fun i ↦ ?_)
    exact shared_frame h.shape ha hn i

/-- A move that is neither an iteration of the layer loop nor a check. -/
theorem Agree.step_other (h : Agree slice o n) (ha : ∀ c, a ≠ .scan c ∧ a ≠ .boost c) :
    Option.Rel (Agree slice) (Countdown.step slice a o) (Cumulative.step slice a n) := by
  cases a with
  | scan c => exact absurd rfl (ha c).1
  | boost c => exact absurd rfl (ha c).2
  | allocproc c =>
    rw [Countdown.step, Cumulative.step, h.caller, h.lock]
    cases hq : n.caller c with
    | none => exact .none
    | some q =>
      simp only [Option.bind_eq_bind, Option.bind_some]
      split_ifs with hl
      · exact .some (h.allocproc (h.shape.caller_running hq))
      · exact .none
  | acquire | resume | timer | yield | sleep | wakeup | exit | wait | kill | fault | forkFail
  | forkPublish | forkLoad | forkStore | forkTorn | fork => exact h.step_shared fun c ↦ by simp

/-- **The simulation.** Both kernels can make the same moves, and agree after each but a boost and
a dispatch that wraps a counter. -/
theorem Agree.step (h : Agree slice o n) (hpos : Positive slice)
    (hcalm : ∀ c, a = .boost c → ∀ i, Calm o n i)
    (hover : ∀ n', Cumulative.step slice a n = some n' → ∀ i, ¬Overflows ⟨n, a, n'⟩ i) :
    Option.Rel (Agree slice) (Countdown.step slice a o) (Cumulative.step slice a n) := by
  cases a with
  | scan c =>
    rw [Cumulative.step] at hover
    rw [Countdown.step, Cumulative.step, h.cpu]
    cases hc : n.cpu c with
    | idle | running => exact .none
    | scan ii k =>
      rw [hc] at hover
      exact .some (h.schedulerStep hpos hc (hover _ rfl))
  | boost c =>
    rw [Countdown.step, Cumulative.step, h.current, h.lock]
    cases hq : n.current c with
    | none => exact .none
    | some q =>
      simp only [Option.bind_eq_bind, Option.bind_some, h.context]
      split_ifs with hl
      · have hcheck := h.check slots nodup_slots fun i _ ↦ hcalm c rfl i
        refine .some (hcheck.frame (hcheck.shape.setTrap q .yield) ?_ rfl fun i ↦ ?_)
        · rw [untick_setTrap]
          exact congrArg (Kernel.setTrap · q .yield) hcheck.kernel
        · exact ⟨setProc_level (by rfl) i, setProc_timeticks (by rfl) i,
            fun hi ↦ setTrap_state q i .yield ▸ hi⟩
      · exact .none
  | acquire | resume | timer | yield | sleep | wakeup | exit | wait | kill | fault | allocproc
  | forkFail | forkPublish | forkLoad | forkStore | forkTorn | fork =>
    exact h.step_other fun c ↦ by simp

/-! ## Runs -/

theorem Agree.boot (slice : ℤ → ℕ) : Agree slice (Countdown.boot slice ncpu) (boot ncpu) := by
  refine ⟨.boot, ?_, fun i hi ↦ ?_⟩
  · have hproc := comp_update Proc.untick (fun _ : Slot ↦ bootProc) initproc
      { bootProc with state := .runnable, pid := 1 }
    exact congrArg (fun p ↦ { Mlfq.boot ncpu with proc := p }) hproc.symm
  · obtain rfl : i = initproc := by
      by_contra hne
      have hother : (Mlfq.boot ncpu).proc i = bootProc := by simp [Mlfq.boot, hne]
      exact hi (congrArg Proc.state hother)
    have hzero : ((Mlfq.boot ncpu).proc initproc).level = 0 := rfl
    refine ⟨?_, ?_, fun _ _ _ ↦ boot_timeticks initproc _⟩
    have hfull : (Countdown.boot slice ncpu).timeticks initproc = slice 0 := by
      simp [Countdown.boot]
    · rw [hzero, boot_timeticks, Int.zero_emod, hfull, sub_zero]
    · rw [hzero, boot_timeticks]
      decide

/-- The slots that a run dispatches, in order. -/
def dispatchOrder (tr : List (Move (Kernel ncpu) (Act ncpu))) : List Slot :=
  tr.flatMap fun m ↦ slots.filter fun i ↦ Dispatches m i

/-- A move of the older kernel, without the ticks. -/
def Countdown.move (m : Move (Countdown ncpu) (Act ncpu)) : Move (Kernel ncpu) (Act ncpu) :=
  ⟨m.src.kernel, m.act, m.dst.kernel⟩

/-- The check boosts a process of the older kernel. -/
def Countdown.Boosts (m : Move (Countdown ncpu) (Act ncpu)) (i : Slot) : Prop :=
  (∃ c, m.act = .boost c) ∧ (m.src.kernel.proc i).state = .runnable ∧ Countdown.Starved i m.src

variable {old : List (Move (Countdown ncpu) (Act ncpu))}
variable {new : List (Move (Kernel ncpu) (Act ncpu))}

theorem Agree.dispatches_iff (h : Agree slice o n) (h' : Agree slice o' n') (a : Act ncpu)
    (i : Slot) : Dispatches (Countdown.move ⟨o, a, o'⟩) i ↔ Dispatches ⟨n, a, n'⟩ i := by
  rw [Countdown.move, h.kernel, h'.kernel]
  exact Iff.rfl

/-- Where the kernels agree, the same moves are possible. -/
theorem Agree.isSome_step (h : Agree slice o n) (a : Act ncpu) :
    (Countdown.step slice a o).isSome = (Cumulative.step slice a n).isSome := by
  by_cases ha : ∀ c, a ≠ .scan c ∧ a ≠ .boost c
  · have hrel := h.step_other ha
    generalize Countdown.step slice a o = x at hrel ⊢
    generalize Cumulative.step slice a n = y at hrel ⊢
    cases hrel with
    | none => rfl
    | some => rfl
  -- an iteration and a check are possible whatever the ticks are
  push Not at ha
  obtain ⟨c, hc⟩ := ha
  by_cases hscan : a = .scan c
  · rw [hscan, Countdown.step, Cumulative.step, h.cpu]
    cases n.cpu c with
    | idle | running => rfl
    | scan => rfl
  · rw [hc hscan, Countdown.step, Cumulative.step, h.current, h.lock]
    cases n.current c with
    | none => rfl
    | some q =>
      simp only [Option.bind_eq_bind, Option.bind_some, h.context]
      split_ifs
      · rfl
      · rfl

/-- The two kernels make one move each. -/
theorem Agree.next (h : Agree slice o n) (hpos : Positive slice)
    (hold : Countdown.step slice a o = some o') (hnew : Cumulative.step slice a n = some n')
    (hcalm : ∀ i, ¬Countdown.Boosts ⟨o, a, o'⟩ i) (hcalm' : ∀ i, ¬Boosts ⟨n, a, n'⟩ i)
    (hover : ∀ i, ¬Overflows ⟨n, a, n'⟩ i) : Agree slice o' n' := by
  have hrel := h.step hpos (a := a)
    (fun c hc i hi ↦ ⟨fun hs ↦ hcalm i ⟨⟨c, hc⟩, by rwa [h.kernel], hs⟩,
      fun hs ↦ hcalm' i ⟨⟨c, hc⟩, hi, hs⟩⟩)
    fun m hm ↦ by rwa [← Option.some.inj (hnew.symm.trans hm)]
  rw [hold, hnew] at hrel
  cases hrel with
  | some h => exact h

/-- The kernels agree after two runs of the same moves, and have dispatched the same slots. -/
theorem agree_of_run (hpos : Positive slice)
    (hold : Run (Countdown.step slice) (Countdown.boot slice ncpu) old o)
    (hnew : Run (Cumulative.step slice) (boot ncpu) new n)
    (hacts : old.map Move.act = new.map Move.act)
    (hcalm : ∀ m ∈ old, ∀ i, ¬Countdown.Boosts m i) (hcalm' : ∀ m ∈ new, ∀ i, ¬Boosts m i)
    (hover : ∀ m ∈ new, ∀ i, ¬Overflows m i) :
    Agree slice o n ∧ dispatchOrder (old.map Countdown.move) = dispatchOrder new := by
  induction hnew generalizing old o with
  | nil =>
    obtain rfl : old = [] := List.map_eq_nil_iff.mp hacts
    rw [hold.nil_inv]
    exact ⟨.boot slice, rfl⟩
  | @snoc u v tr a hrun hstep ih =>
    obtain rfl | ⟨old', m, rfl⟩ := List.eq_nil_or_concat' old
    · simp at hacts
    rw [List.map_append, List.map_append] at hacts
    obtain ⟨hacts', ha⟩ := List.append_inj' hacts rfl
    obtain rfl : m.act = a := (List.cons.inj ha).1
    obtain ⟨hpre, hlast, rfl⟩ := hold.snoc_inv
    obtain ⟨hagree, horder⟩ := ih hpre hacts' (fun m hm ↦ hcalm m (List.mem_append_left _ hm))
      (fun m hm ↦ hcalm' m (List.mem_append_left _ hm))
      fun m hm ↦ hover m (List.mem_append_left _ hm)
    have hnext : Agree slice m.dst v := hagree.next hpos hlast hstep (hcalm m (by simp))
      (hcalm' ⟨u, m.act, v⟩ (by simp)) (hover ⟨u, m.act, v⟩ (by simp))
    refine ⟨hnext, ?_⟩
    rw [List.map_append, dispatchOrder, dispatchOrder, List.flatMap_append, List.flatMap_append]
    refine congrArg₂ _ horder ?_
    simp only [List.map_cons, List.map_nil, List.flatMap_singleton]
    exact congrArg (List.filter · slots) (funext fun i ↦
      decide_eq_decide.mpr (hagree.dispatches_iff hnext m.act i))

/-- **The two schedulers.** Driven by the same moves from boot, with no boost and no dispatch of a
process whose counter is the largest `int`, the older and the newer kernel dispatch the same slots
in the same order, have every process at the same level, and their ticks match. Afterwards they can
make the same moves. -/
theorem schedulers_agree (ncpu : ℕ) (slice : ℤ → ℕ) (hpos : Positive slice)
    (old : List (Move (Countdown ncpu) (Act ncpu))) (new : List (Move (Kernel ncpu) (Act ncpu)))
    (o : Countdown ncpu) (n : Kernel ncpu)
    (hold : Run (Countdown.step slice) (Countdown.boot slice ncpu) old o)
    (hnew : Run (Cumulative.step slice) (boot ncpu) new n)
    (hacts : old.map Move.act = new.map Move.act)
    (hcalm : ∀ m ∈ old, ∀ i, ¬Countdown.Boosts m i) (hcalm' : ∀ m ∈ new, ∀ i, ¬Boosts m i)
    (hover : ∀ m ∈ new, ∀ i, ¬Overflows m i) :
    dispatchOrder (old.map Countdown.move) = dispatchOrder new ∧
      (∀ i, (o.kernel.proc i).state = (n.proc i).state ∧
        (o.kernel.proc i).level = (n.proc i).level) ∧
      (∀ i, (n.proc i).state ≠ .unused → o.timeticks i = slice (n.proc i).level -
        (n.proc i).timeticks (n.proc i).level % slice (n.proc i).level) ∧
      ∀ a, (Countdown.step slice a o).isSome = (Cumulative.step slice a n).isSome := by
  obtain ⟨hagree, horder⟩ := agree_of_run hpos hold hnew hacts hcalm hcalm' hover
  refine ⟨horder, fun i ↦ ?_, fun i hi ↦ (hagree.slot i hi).1, hagree.isSome_step⟩
  rw [hagree.kernel]
  exact ⟨rfl, rfl⟩

section Example

/-- The first process forks, uses up a slice of two ticks, and its child is dispatched. -/
def firstSlice : List (Act 1) :=
  [.acquire 0, .scan 0, .resume 0] ++ forks 1 ++ ticks 2

/-- The slot that the layer loop has come to has no counter at the largest `int`. -/
def farFromMax (n : Kernel 1) : Bool :=
  match n.cpu 0 with
  | .scan _ k => if hk : k < nproc then
      (n.proc ⟨k, hk⟩).timeticks (n.proc ⟨k, hk⟩).level ≠ 2 ^ 31 - 1 else true
  | _ => true

theorem not_overflows_of_farFromMax {m : Move (Kernel 1) (Act 1)} {i : Slot}
    (h : farFromMax m.src) (ha : ∀ c, m.act ≠ .boost c)
    (hstep : Cumulative.step slice m.act m.src = some m.dst) : ¬Overflows m i := by
  rintro ⟨hd, hmax⟩
  obtain ⟨c, ii, hc⟩ := cumulative_dispatches_inv ha hstep hd
  rw [farFromMax, ← Subsingleton.elim c 0, hc] at h
  simp [hmax] at h

theorem firstSlice_replay : farFromMax (boot 1) ∧
    (replay (Countdown.step fun _ ↦ 2) firstSlice (Countdown.boot (fun _ ↦ 2) 1)).isSome ∧
      (replayIn (Cumulative.step fun _ ↦ 2) farFromMax firstSlice (boot 1)).isSome := by
  decide +kernel

theorem schedulers_agree_firstSlice : ∃ (old : List (Move (Countdown 1) (Act 1)))
    (new : List (Move (Kernel 1) (Act 1))), old.map Move.act = firstSlice ∧
      new.map Move.act = firstSlice ∧
        dispatchOrder (old.map Countdown.move) = dispatchOrder new := by
  obtain ⟨hboot, hold, hnew⟩ := firstSlice_replay
  obtain ⟨o, ho⟩ := Option.isSome_iff_exists.mp hold
  obtain ⟨n, hn⟩ := Option.isSome_iff_exists.mp hnew
  obtain ⟨old, hold, hactsO⟩ := exists_run_of_replay ho
  obtain ⟨new, hnew, hactsN, hfar⟩ := exists_run_of_replayIn hn
  have hcalm : ∀ c : Fin 1, Act.boost c ∉ firstSlice := by decide
  refine ⟨old, new, hactsO, hactsN, (schedulers_agree 1 (fun _ ↦ 2) (fun _ _ _ ↦ two_pos) old new
    o n hold hnew (hactsO.trans hactsN.symm) ?_ ?_ fun m hm i hover ↦ ?_).1⟩
  · rintro m hm i ⟨⟨c, hc⟩, -⟩
    exact hcalm c (hactsO ▸ hc ▸ List.mem_map_of_mem hm)
  · rintro m hm i ⟨⟨c, hc⟩, -⟩
    exact hcalm c (hactsN ▸ hc ▸ List.mem_map_of_mem hm)
  · have hsrc := (hnew.src_of_dst (P := fun n ↦ farFromMax n) hboot hfar).2 m hm
    refine not_overflows_of_farFromMax hsrc (fun c hc ↦ ?_) (hnew.enabled m hm) hover
    exact hcalm c (hactsN ▸ hc ▸ List.mem_map_of_mem hm)

/-! ### A counter that wraps

The first process is alone, and at level 3 it sleeps and is woken up after every dispatch. -/

def threes (l : ℤ) : ℕ := if l = 3 then 3 else 1

def napTime (n : ℕ) : List (Act 1) :=
  [.resume 0, .sleep 0 (.other 0)] ++ List.replicate n (.scan 0) ++ [.wakeup 0 (.other 0)]

/-- Three dispatches and three times asleep, down to level 3. -/
def toBottom : List (Act 1) :=
  [.acquire 0, .scan 0] ++ napTime 260 ++ [.acquire 0, .scan 0, .scan 0] ++ napTime 195 ++
    [.acquire 0, .scan 0, .scan 0] ++ napTime 130

/-- The first process at level 3. -/
def loner (state : ProcState) (pos : Pos) (chan : Option Chan) (ticks : ℤ → ℤ) : Proc where
  state := state
  pid := 1
  parent := none
  chan := chan
  killed := false
  level := 3
  timeticks := ticks
  context := { pos := pos, trap := .none }

/-- The first process is alone and at level 3. -/
structure Alone (x : Cpu) (lock : Option (Fin 1)) (p : Proc) (s : Kernel 1) : Prop where
  cpu : s.cpu 0 = x
  lock : s.lock = lock
  proc : s.proc initproc = p
  others : ∀ i ≠ initproc, (s.proc i).state = .unused
  ninlevel : ∀ l : ℤ, 0 ≤ l → l < 3 → s.ninlevel l = 0

/-- Neither a check nor a dispatch that wraps a counter. -/
def Plain (m : Move (Kernel 1) (Act 1)) : Prop :=
  (∀ c, m.act ≠ .boost c) ∧ ∀ i, ¬Overflows m i

/-- The newer kernel gets there with all its counters right. -/
def Gets (x : Cpu) (lock : Option (Fin 1)) (p : Proc) : Prop :=
  ∃ s, ReachableBy (Cumulative.step threes) (· = boot 1) Plain s ∧ Alone x lock p s

section Loner

variable {x x' : Cpu} {lock lock' : Option (Fin 1)} {p p' : Proc} {u : Kernel 1}
variable {state : ProcState} {pos : Pos} {chan : Option Chan} {f : ℤ → ℤ} {j : ℕ}

theorem Gets.move (h : Gets x lock p) (b : Act 1) (hb : ∀ c, b ≠ .boost c)
    (hmax : p.state = .runnable → p'.state = .running → p.timeticks p.level ≠ 2 ^ 31 - 1)
    (hstep : ∀ u, Alone x lock p u →
      ∃ v, Cumulative.step threes b u = some v ∧ Alone x' lock' p' v) : Gets x' lock' p' := by
  obtain ⟨u, hu, halone⟩ := h
  obtain ⟨v, hv, halone'⟩ := hstep u halone
  refine ⟨v, hu.snoc hv ⟨hb, fun i ⟨hd, hfull⟩ ↦ ?_⟩, halone'⟩
  obtain ⟨hsrc, hdst⟩ : (u.proc i).state = .runnable ∧ (v.proc i).state = .running := hd
  by_cases hi : i = initproc
  · subst hi
    change (u.proc initproc).timeticks (u.proc initproc).level = 2 ^ 31 - 1 at hfull
    rw [halone.proc] at hsrc hfull
    rw [halone'.proc] at hdst
    exact hmax hsrc hdst hfull
  · rw [halone.others i hi] at hsrc
    cases hsrc

theorem Alone.setCpu (h : Alone x lock p u) : Alone x' lock p (u.setCpu 0 x') :=
  ⟨(update_self 0 x' u.cpu :), h.lock, h.proc, h.others, h.ninlevel⟩

theorem Alone.setLock (h : Alone x lock p u) : Alone x lock' p (u.setLock lock') :=
  ⟨h.cpu, rfl, h.proc, h.others, h.ninlevel⟩

theorem Alone.setProc (h : Alone x lock p u) : Alone x lock p' (u.setProc initproc p') :=
  ⟨h.cpu, h.lock, (update_self initproc p' u.proc :),
    fun i hi ↦ (congrArg Proc.state (update_of_ne hi p' u.proc) :).trans (h.others i hi),
    h.ninlevel⟩

theorem Alone.addLevel (h : Alone x lock p u) (d : ℤ) : Alone x lock p (u.addLevel 3 d) :=
  ⟨h.cpu, h.lock, h.proc, h.others,
    fun l hl hl' ↦ (update_of_ne hl'.ne _ u.ninlevel).trans (h.ninlevel l hl hl')⟩

theorem Alone.sched {i : Slot} {ii : ℤ} (h : Alone (.running i ii j) lock p u) :
    Alone (.scan ii j) (some 0) p (sched 0 u) := by
  rw [Mlfq.sched, h.cpu]
  exact h.setCpu.setLock

theorem Alone.highestlevel (h : Alone x lock p u) : highestlevel u.ninlevel = 3 := by
  simp [Mlfq.highestlevel, nlayer, highestFrom, h.ninlevel]

theorem Gets.acquire (h : Gets .idle none p) : Gets (.scan 0 0) (some 0) p := by
  refine h.move (.acquire 0) (by simp)
    (fun hp hp' ↦ absurd (hp.symm.trans hp') (by decide)) fun u hu ↦ ?_
  exact ⟨_, if_pos ⟨hu.cpu, hu.lock⟩, hu.setCpu.setLock⟩

/-- The layer loop jumps to the level of the process. -/
theorem Gets.jump (h : Gets (.scan 0 0) lock p) (hp : p.state = .runnable) :
    Gets (.scan 3 0) lock p := by
  refine h.move (.scan 0) (by simp)
    (fun hp hp' ↦ absurd (hp.symm.trans hp') (by decide)) fun u hu ↦ ⟨u.setCpu 0 (.scan 3 0), ?_,
      hu.setCpu⟩
  have hstate : ¬(u.proc initproc).state ≠ .runnable := by simp [hu.proc, hp]
  have hit : iterate u.proc u.ninlevel 0 0 = .next 3 0 := by
    refine (if_pos (by decide)).trans ((dif_pos (by decide)).trans ((if_neg hstate).trans ?_))
    rw [hu.highestlevel]
    rfl
  rw [Cumulative.step, hu.cpu]
  simp only [Cumulative.schedulerStep, hit]

theorem Alone.iterate (h : Alone x lock (loner .runnable pos chan f) u) :
    iterate u.proc u.ninlevel 3 0 = .dispatch initproc := by
  have hstate : ¬(u.proc initproc).state ≠ .runnable := by simp [h.proc, loner]
  have hlevel : ¬(u.proc initproc).level ≠ 3 := by simp [h.proc, loner]
  refine (if_pos (by decide)).trans ((dif_pos (by decide)).trans ((if_neg hstate).trans ?_))
  rw [h.highestlevel]
  exact (if_neg (not_not.mpr rfl)).trans (if_neg hlevel)

/-- The dispatch, at the end of a slice or not. -/
theorem dispatch_of_alone (lock : Option (Fin 1)) (pos : Pos) (chan : Option Chan) (f : ℤ → ℤ) :
    ∃ k ≤ 1, ∀ u, Alone (.scan 3 0) lock (loner .runnable pos chan f) u →
      ∃ v, Cumulative.step threes (.scan 0) u = some v ∧ Alone (.running initproc 3 k) lock
        (loner .running pos chan (update f 3 (toInt32 (f 3 + 1)))) v := by
  have hscan : ∀ u, Alone (.scan 3 0) lock (loner .runnable pos chan f) u →
      Cumulative.step threes (.scan 0) u = some (Cumulative.dispatch threes 0 initproc 3 u) := by
    intro u hu
    rw [Cumulative.step, hu.cpu]
    simp only [Cumulative.schedulerStep, hu.iterate]
  by_cases hend : toInt32 (f 3 + 1) % threes 3 ≠ 0
  · refine ⟨0, zero_le_one, fun u hu ↦ ⟨_, hscan u hu, ?_⟩⟩
    rw [Cumulative.dispatch, hu.proc]
    exact (if_pos hend).symm ▸ hu.setProc.setCpu
  · refine ⟨1, le_rfl, fun u hu ↦ ⟨_, hscan u hu, ?_⟩⟩
    rw [Cumulative.dispatch, hu.proc]
    exact ((if_neg hend).trans (if_neg (not_not.mpr rfl))).symm ▸ hu.setProc.setCpu

theorem Gets.dispatch (h : Gets (.scan 3 0) lock (loner .runnable pos chan f))
    (hmax : f 3 ≠ 2 ^ 31 - 1) : ∃ k ≤ 1, Gets (.running initproc 3 k) lock
      (loner .running pos chan (update f 3 (toInt32 (f 3 + 1)))) := by
  obtain ⟨k, hk, hstep⟩ := dispatch_of_alone lock pos chan f
  exact ⟨k, hk, h.move (.scan 0) (by simp) (fun _ _ ↦ hmax) hstep⟩

theorem Gets.resume {k : ℕ} (h : Gets (.running initproc 3 k) (some 0)
    (loner .running .sleep chan f)) :
    Gets (.running initproc 3 k) none (loner .running .user none f) := by
  refine h.move (.resume 0) (by simp) (by simp [loner]) fun u hu ↦
    ⟨Mlfq.resume 0 initproc u, ?_, ?_⟩
  · rw [Cumulative.step, hu.cpu]
    exact if_pos hu.lock
  · have hpos : (u.proc initproc).context.pos = .sleep := by rw [hu.proc, loner]
    rw [Mlfq.resume, hpos]
    have hchan : Alone (.running initproc 3 k) (some 0) (loner .running .sleep none f)
        (u.setChan initproc none) := by
      rw [Kernel.setChan, hu.proc]
      exact hu.setProc
    have hput : Alone (.running initproc 3 k) (some 0) (loner .running .user none f)
        ((u.setChan initproc none).setPos initproc .user) := by
      rw [Kernel.setPos, hchan.proc]
      exact hchan.setProc
    exact hput.setLock

theorem Gets.sleep {k : ℕ} (h : Gets (.running initproc 3 k) none
    (loner .running .user chan f)) :
    Gets (.scan 3 k) (some 0) (loner .sleeping .sleep (some (.other 0)) f) := by
  refine h.move (.sleep 0 (.other 0)) (by simp) (by simp [loner]) fun u hu ↦
    ⟨Mlfq.sleep (.other 0) 0 initproc u, ?_, ?_⟩
  · have hcaller : u.caller 0 = some initproc := by
      simp [Kernel.caller, Kernel.interruptible, Kernel.current, hu.cpu, hu.lock, hu.proc, loner]
    rw [Cumulative.step, hcaller]
    exact if_pos hu.lock
  · rw [Mlfq.sleep, sleepAs, hu.proc]
    exact (hu.setProc.addLevel (-1)).sched

/-- The scheduler passes a slot that is not RUNNABLE. -/
theorem Gets.pass {k : ℕ} (h : Gets (.scan 3 k) lock p) (hk : k < nproc)
    (hp : p.state ≠ .runnable) : Gets (.scan 3 (k + 1)) lock p := by
  refine h.move (.scan 0) (by simp) (fun hp' _ ↦ absurd hp' hp) fun u hu ↦
    ⟨u.setCpu 0 (.scan 3 (k + 1)), ?_, hu.setCpu⟩
  have hstate : (u.proc ⟨k, hk⟩).state ≠ .runnable := by
    by_cases hi : (⟨k, hk⟩ : Slot) = initproc
    · rwa [hi, hu.proc]
    · rw [hu.others _ hi]
      decide
  have hit : iterate u.proc u.ninlevel 3 k = .next 3 (k + 1) :=
    (if_pos (by decide)).trans ((dif_pos hk).trans (if_pos hstate))
  rw [Cumulative.step, hu.cpu]
  simp only [Cumulative.schedulerStep, hit]

/-- The scheduler goes through the rest of level 3 and releases the lock. -/
theorem Gets.release {k : ℕ} (h : Gets (.scan 3 k) lock p) (hk : k ≤ nproc)
    (hp : p.state ≠ .runnable) : Gets .idle none p := by
  induction hd : nproc - k generalizing k with
  | succ d ih => exact ih (h.pass (by omega) hp) (by omega) (by omega)
  | zero =>
    obtain rfl : k = nproc := by omega
    have hlast : Gets (.scan 4 0) lock p := by
      refine h.move (.scan 0) (by simp) (fun hp' _ ↦ absurd hp' hp) fun u hu ↦
        ⟨u.setCpu 0 (.scan 4 0), ?_, hu.setCpu⟩
      have hit : iterate u.proc u.ninlevel 3 nproc = .next 4 0 :=
        (if_pos (by decide)).trans (dif_neg (lt_irrefl _))
      rw [Cumulative.step, hu.cpu]
      simp only [Cumulative.schedulerStep, hit]
    refine hlast.move (.scan 0) (by simp) (fun hp' _ ↦ absurd hp' hp) fun u hu ↦
      ⟨(u.setCpu 0 .idle).setLock none, ?_, hu.setCpu.setLock⟩
    have hit : iterate u.proc u.ninlevel 4 0 = .release := if_neg (by decide)
    rw [Cumulative.step, hu.cpu]
    simp only [Cumulative.schedulerStep, hit]

theorem Gets.wakeup (h : Gets .idle none (loner .sleeping pos (some (.other 0)) f)) :
    Gets .idle none (loner .runnable pos (some (.other 0)) f) := by
  refine h.move (.wakeup 0 (.other 0)) (by simp) (by simp [loner]) fun u hu ↦
    ⟨wakeup1 (.other 0) u, if_pos ⟨.inl hu.cpu, hu.lock⟩, ?_⟩
  obtain ⟨hcpu, hlock, -⟩ := wakeup1_frame (s := u) (.other 0)
  refine ⟨hcpu ▸ hu.cpu, hlock ▸ hu.lock, ?_, fun i hi ↦ ?_, ?_⟩
  · rw [wakeup1_proc, hu.proc]
    rfl
  · rw [wakeup1_proc, Proc.wake, if_neg (by simp [hu.others i hi]), hu.others i hi]
  · -- only the counter of level 3 is raised
    refine (wakeup1_rec (s := u) (P := fun v ↦ (∀ i, (v.proc i).state = .sleeping →
      (v.proc i).level = 3) ∧ ∀ l : ℤ, 0 ≤ l → l < 3 → v.ninlevel l = 0) (.other 0)
      ⟨fun i hi ↦ ?_, hu.ninlevel⟩ ?_).2
    · by_cases hi' : i = initproc
      · rw [hi', hu.proc, loner]
      · rw [hu.others i hi'] at hi
        cases hi
    · rintro v q ⟨hlevel, hzero⟩
      rw [wakeOne]
      split_ifs with hq
      · refine ⟨fun i hi ↦ ?_, fun l hl hl' ↦ ?_⟩
        · rw [addLevel_proc, setProc_proc] at hi ⊢
          rcases eq_or_ne i q with rfl | hne
          · rw [update_self] at hi
            cases hi
          · rw [update_of_ne hne] at hi ⊢
            exact hlevel i hi
        · have hthree := hlevel q hq.1
          have hne : l ≠ (v.proc q).level := by omega
          exact (update_of_ne hne _ v.ninlevel :).trans (hzero l hl hl')
      · exact ⟨hlevel, hzero⟩

/-- A dispatch, and asleep again until the next wakeup. -/
theorem Gets.turn (h : Gets .idle none (loner .runnable .sleep (some (.other 0)) f))
    (hmax : f 3 ≠ 2 ^ 31 - 1) : Gets .idle none
      (loner .runnable .sleep (some (.other 0)) (update f 3 (toInt32 (f 3 + 1)))) := by
  obtain ⟨k, hk, hrun⟩ := (h.acquire.jump rfl).dispatch hmax
  have hslots : k ≤ nproc := hk.trans (by decide)
  exact (hrun.resume.sleep.release hslots (by simp [loner])).wakeup

theorem toBottom_replay : farFromMax (boot 1) ∧
    ((replayIn (Cumulative.step threes) farFromMax toBottom (boot 1)).map fun u ↦
      decide ((u.cpu 0 = .idle ∧ u.lock = none) ∧ (∀ i ≠ initproc, (u.proc i).state = .unused) ∧
        (u.ninlevel 0 = 0 ∧ u.ninlevel 1 = 0 ∧ u.ninlevel 2 = 0) ∧
          (u.proc initproc).timeticks 3 = 0 ∧ (u.proc initproc).state = .runnable ∧
            (u.proc initproc).pid = 1 ∧ (u.proc initproc).parent = none ∧
              (u.proc initproc).chan = some (.other 0) ∧ (u.proc initproc).killed = false ∧
                (u.proc initproc).level = 3 ∧
                  (u.proc initproc).context = { pos := .sleep, trap := .none })) = some true := by
  decide +kernel

theorem Gets.bottom : ∃ f : ℤ → ℤ, f 3 = 0 ∧
    Gets .idle none (loner .runnable .sleep (some (.other 0)) f) := by
  obtain ⟨hboot, hreplay⟩ := toBottom_replay
  obtain ⟨u, hu, hval⟩ := Option.map_eq_some_iff.mp hreplay
  obtain ⟨⟨hcpu, hlock⟩, hothers, ⟨hzero, hone, htwo⟩, hticks, hproc⟩ := of_decide_eq_true hval
  obtain ⟨tr, hrun, hacts, hfar⟩ := exists_run_of_replayIn hu
  have hsrc := (hrun.src_of_dst (P := fun n ↦ farFromMax n) hboot hfar).2
  have hacts' : ∀ c : Fin 1, Act.boost c ∉ toBottom := by decide +kernel
  have hcalm : ∀ m ∈ tr, ∀ c, m.act ≠ .boost c := fun m hm c hc ↦
    hacts' c (hacts ▸ hc ▸ List.mem_map_of_mem hm)
  refine ⟨(u.proc initproc).timeticks, hticks, u, ⟨_, tr, rfl, hrun, fun m hm ↦ ⟨hcalm m hm,
    fun i ↦ not_overflows_of_farFromMax (hsrc m hm) (hcalm m hm) (hrun.enabled m hm)⟩⟩, hcpu, hlock,
    ?_, hothers, fun l hl hl' ↦ ?_⟩
  · obtain ⟨hstate, hpid, hparent, hchan, hkilled, hlevel, hcontext⟩ := hproc
    rw [loner, ← hstate, ← hpid, ← hparent, ← hchan, ← hkilled, ← hlevel, ← hcontext]
  · obtain rfl | rfl | rfl : l = 0 ∨ l = 1 ∨ l = 2 := by omega
    · exact hzero
    · exact hone
    · exact htwo

/-- The counter of level 3 gets to every `int`. -/
theorem Gets.turns (n : ℕ) (hn : n < 2 ^ 31) : ∃ f : ℤ → ℤ, f 3 = n ∧
    Gets .idle none (loner .runnable .sleep (some (.other 0)) f) := by
  induction n with
  | zero => exact Gets.bottom
  | succ n ih =>
    obtain ⟨f, hf, hgets⟩ := ih (by omega)
    refine ⟨_, ?_, hgets.turn (by omega)⟩
    rw [update_self, hf, toInt32_of_range (by omega) (by omega), Nat.cast_succ]

/-- The older kernel follows. -/
theorem exists_countdown {slice : ℤ → ℕ} (hpos : Positive slice)
    (h : Run (Cumulative.step slice) (boot ncpu) new n)
    (hplain : ∀ m ∈ new, (∀ c, m.act ≠ .boost c) ∧ ∀ i, ¬Overflows m i) :
    ∃ old o, Run (Countdown.step slice) (Countdown.boot slice ncpu) old o ∧
      old.map Move.act = new.map Move.act ∧ Agree slice o n := by
  induction h with
  | nil => exact ⟨[], _, .nil _, rfl, .boot slice⟩
  | @snoc u v tr a hrun hstep ih =>
    obtain ⟨old, o, hold, hacts, hagree⟩ := ih fun m hm ↦ hplain m (List.mem_append_left _ hm)
    obtain ⟨hcalm, hover⟩ := hplain ⟨u, a, v⟩ (by simp)
    obtain ⟨o', ho'⟩ : ∃ o', Countdown.step slice a o = some o' := by
      rw [← Option.isSome_iff_exists, hagree.isSome_step, hstep]
      rfl
    refine ⟨_, o', hold.snoc ho', by rw [List.map_append, List.map_append, hacts]; rfl,
      hagree.next hpos ho' hstep (fun i hi ↦ ?_) (fun i hi ↦ ?_) hover⟩
    · obtain ⟨c, hc⟩ := hi.1
      exact hcalm c hc
    · obtain ⟨c, hc⟩ := hi.1
      exact hcalm c hc

end Loner

/-- After `2 ^ 31` dispatches at level 3 the counters of the two kernels do not match. -/
theorem not_schedulers_agree : ¬∀ (slice : ℤ → ℕ) (old : List (Move (Countdown 1) (Act 1)))
    (new : List (Move (Kernel 1) (Act 1))) (o : Countdown 1) (n : Kernel 1), Positive slice →
    Run (Countdown.step slice) (Countdown.boot slice 1) old o →
    Run (Cumulative.step slice) (boot 1) new n → old.map Move.act = new.map Move.act →
    (∀ m ∈ old, ∀ i, ¬Countdown.Boosts m i) → (∀ m ∈ new, ∀ i, ¬Boosts m i) →
      dispatchOrder (old.map Countdown.move) = dispatchOrder new ∧
        (∀ i, (o.kernel.proc i).state = (n.proc i).state ∧
          (o.kernel.proc i).level = (n.proc i).level) ∧
        ∀ i, (n.proc i).state ≠ .unused → o.timeticks i = slice (n.proc i).level -
          (n.proc i).timeticks (n.proc i).level % slice (n.proc i).level := by
  intro hall
  have hpos : Positive threes := fun l _ _ ↦ by
    rw [threes]
    split_ifs <;> decide
  obtain ⟨f, hf, hgets⟩ := Gets.turns (2 ^ 31 - 1) (by decide)
  obtain ⟨n, ⟨-, new, rfl, hnew, hplain⟩, halone⟩ := hgets.acquire.jump rfl
  obtain ⟨old, o, hold, hacts, hagree⟩ := exists_countdown hpos hnew hplain
  -- the dispatch that wraps the counter of the newer kernel
  obtain ⟨k, -, hdispatch⟩ := dispatch_of_alone (some 0) .sleep (some (.other 0)) f
  obtain ⟨n', hn', halone'⟩ := hdispatch n halone
  rw [hf, show toInt32 ((2 ^ 31 - 1 : ℕ) + 1) = -2 ^ 31 by decide] at halone'
  have hstate : (n.proc initproc).state ≠ .unused := by simp [halone.proc, loner]
  have hleft : o.timeticks initproc = 2 := by
    rw [(hagree.slot initproc hstate).1, halone.proc]
    change (threes 3 : ℤ) - f 3 % threes 3 = 2
    rw [hf]
    decide
  have ho' : Countdown.step threes (.scan 0) o =
      some (Countdown.dispatch threes 0 initproc 3 o) := by
    have hit : iterate o.kernel.proc o.kernel.ninlevel 3 0 = .dispatch initproc := by
      rw [hagree.kernel]
      exact halone.iterate
    rw [Countdown.step, hagree.cpu, halone.cpu]
    simp only [Countdown.schedulerStep, hit]
  have hleft' : (Countdown.dispatch threes 0 initproc 3 o).timeticks initproc = 1 := by
    rw [Countdown.dispatch, hleft, if_pos (by decide)]
    exact update_self initproc _ o.timeticks
  -- no move of the two runs is a check
  have hcalm : ∀ m ∈ new ++ [⟨n, .scan 0, n'⟩], ∀ c, m.act ≠ .boost c := by
    intro m hm c
    rcases List.mem_append.mp hm with hm | hm
    · exact (hplain m hm).1 c
    · rw [List.mem_singleton.mp hm]
      simp
  have hsame (m : Move (Countdown 1) (Act 1)) (m' : Move (Kernel 1) (Act 1)) (hm : m.act = m'.act) :
      (old ++ [m]).map Move.act = (new ++ [m']).map Move.act := by
    rw [List.map_append, List.map_append, hacts, List.map_singleton, List.map_singleton, hm]
  obtain ⟨-, -, hticks⟩ := hall threes _ _ _ _ hpos (hold.snoc ho') (hnew.snoc hn')
    (hsame _ ⟨n, .scan 0, n'⟩ rfl)
    (fun m hm i hi ↦ by
      obtain ⟨c, hc⟩ := hi.1
      have hact := List.mem_map_of_mem (f := Move.act) hm
      rw [hsame _ ⟨n, .scan 0, n'⟩ rfl] at hact
      obtain ⟨m', hm', heq⟩ := List.mem_map.mp hact
      exact hcalm m' hm' c (heq.trans hc))
    fun m hm i hi ↦ by
      obtain ⟨c, hc⟩ := hi.1
      exact hcalm m hm c hc
  have hend := hticks initproc (by simp [halone'.proc, loner])
  rw [hleft', halone'.proc] at hend
  change (1 : ℤ) = threes 3 - update f 3 (-2 ^ 31) 3 % threes 3 at hend
  rw [update_self] at hend
  exact absurd hend (by decide)

end Example

end CS537.Mlfq
