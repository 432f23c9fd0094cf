import CS537.Mlfq.Counters

/-!
# The layer loop

The loop variables stay in range, every RUNNING process is on a CPU, and the highest level is what
its name says once the counters are right. Between two moves of a CPU inside the layer loop, which
holds `ptable.lock`, the other CPUs can only finish a `fork` or do things that do not concern it.

An iteration lowers the rank of the loop variables as long as some RUNNABLE process is at the
highest level, or none is RUNNABLE at all.
-/

namespace CS537.Mlfq

open Function Transition

variable {ncpu : ℕ} {s t : Kernel ncpu} {c : Fin ncpu}

/-! ## The highest level -/

theorem highestFrom_spec (n : ℤ → ℤ) (k : ℕ) (h : ℤ) :
    h ≤ highestFrom n k h ∧ highestFrom n k h ≤ h + k ∧
      (∀ l, h ≤ l → l < highestFrom n k h → n l = 0) ∧
      (highestFrom n k h ≠ h + k → n (highestFrom n k h) ≠ 0) := by
  induction k generalizing h with
  | zero =>
    refine ⟨le_rfl, by simp [highestFrom], fun l hl hl' ↦ ?_, fun hne ↦ ?_⟩
    · rw [highestFrom] at hl'
      omega
    · simp [highestFrom] at hne
  | succ k ih =>
    rw [highestFrom]
    split
    · next hzero =>
      obtain ⟨hle, hbound, hbelow, hat⟩ := ih (h + 1)
      refine ⟨by omega, by push_cast; omega, fun l hl hl' ↦ ?_, fun hne ↦ hat ?_⟩
      · rcases eq_or_lt_of_le hl with rfl | hlt
        · exact hzero
        · exact hbelow l hlt hl'
      · intro he
        apply hne
        push_cast
        omega
    · next hne => exact ⟨le_rfl, by omega, fun l hl hl' ↦ by omega, fun _ ↦ hne⟩

theorem highestlevel_mem (n : ℤ → ℤ) : 0 ≤ highestlevel n ∧ highestlevel n < nlayer := by
  obtain ⟨hle, hbound, -, -⟩ := highestFrom_spec n (nlayer - 1) 0
  rw [highestlevel]
  refine ⟨hle, ?_⟩
  simp only [nlayer] at hbound ⊢
  omega

theorem eq_zero_of_lt_highestlevel {n : ℤ → ℤ} {l : ℤ} (hl : 0 ≤ l) (h : l < highestlevel n) :
    n l = 0 :=
  (highestFrom_spec n (nlayer - 1) 0).2.2.1 l hl h

theorem highestlevel_ne_zero {n : ℤ → ℤ} (h : highestlevel n ≠ nlayer - 1) :
    n (highestlevel n) ≠ 0 := by
  refine (highestFrom_spec n (nlayer - 1) 0).2.2.2 ?_
  rw [highestlevel] at h
  simp only [nlayer] at h ⊢
  simpa using h

/-- No RUNNABLE or RUNNING process is above the highest level. -/
theorem highestlevel_le (h : Counted s) {q : Slot} (hq : (s.proc q).Ready) :
    highestlevel s.ninlevel ≤ (s.proc q).level := by
  by_contra hlt
  obtain ⟨hlevel, hcount⟩ := h
  have hzero := eq_zero_of_lt_highestlevel (hlevel q).1 (not_le.mp hlt)
  rw [hcount _ (hlevel q).1 (hlevel q).2, Nat.cast_eq_zero, Finset.card_eq_zero] at hzero
  have hmem : q ∈ readyAt s (s.proc q).level := by simp [readyAt, hq]
  rw [hzero] at hmem
  simp at hmem

/-- If any process is RUNNABLE or RUNNING, one is at the highest level. -/
theorem exists_ready_highestlevel (h : Counted s) {q : Slot} (hq : (s.proc q).Ready) :
    ∃ r, (s.proc r).Ready ∧ (s.proc r).level = highestlevel s.ninlevel := by
  have hle := highestlevel_le h hq
  have hmem := highestlevel_mem s.ninlevel
  rcases eq_or_ne (highestlevel s.ninlevel) (nlayer - 1) with hlast | hnot
  · refine ⟨q, hq, ?_⟩
    have := (h.1 q).2
    omega
  · have hne := highestlevel_ne_zero hnot
    rw [h.2 _ hmem.1 hmem.2, Nat.cast_ne_zero, Finset.card_ne_zero] at hne
    obtain ⟨r, hr⟩ := hne
    exact ⟨r, by simpa [readyAt] using hr⟩

/-! ## Where the CPUs go -/

/-- The loop variables are in range. -/
def Cpu.InRange : Cpu → Prop
  | .idle => True
  | .scan ii p | .running _ ii p => 0 ≤ ii ∧ ii ≤ nlayer ∧ p ≤ nproc

/-- What a move does to the CPUs: nothing, or `acquire`, or an iteration, or `sched`. -/
inductive CpuMove (s : Kernel ncpu) : Act ncpu → Kernel ncpu → Prop
  | stay {a : Act ncpu} {t : Kernel ncpu} (hcpu : t.cpu = s.cpu) (ha : ∀ c, a ≠ .scan c) :
    CpuMove s a t
  | acquire {c : Fin ncpu} {t : Kernel ncpu} (hc : s.cpu c = .idle)
    (hcpu : t.cpu = update s.cpu c (.scan 0 0)) : CpuMove s (.acquire c) t
  | iterate {c : Fin ncpu} {ii : ℤ} {p : ℕ} (hc : s.cpu c = .scan ii p) :
    CpuMove s (.scan c) (schedulerStep c ii p s)
  | leave {a : Act ncpu} {t : Kernel ncpu} {c : Fin ncpu} {q : Slot} {ii : ℤ} {p : ℕ}
    (hc : s.cpu c = .running q ii p) (hcpu : t.cpu = update s.cpu c (.scan ii p))
    (hq : (t.proc q).state ≠ .running) (ha : ∀ c, a ≠ .scan c) : CpuMove s a t

theorem sched_cpu {q : Slot} {ii : ℤ} {p : ℕ} (hc : s.cpu c = .running q ii p) :
    (sched c s).cpu = update s.cpu c (.scan ii p) := by
  rw [sched, hc]
  rfl

theorem sleepAs_leaves {q : Slot} {ii : ℤ} {p : ℕ} (hc : s.cpu c = .running q ii p) (x : Pos)
    (chan : Chan) : (sleepAs x chan c q s).cpu = update s.cpu c (.scan ii p) ∧
      ((sleepAs x chan c q s).proc q).state ≠ .running := by
  rw [sleepAs]
  refine ⟨sched_cpu hc, ?_⟩
  rw [sched_proc, addLevel_proc, setProc_proc, update_self]
  simp

theorem exit_leaves {q : Slot} {ii : ℤ} {p : ℕ} (hc : s.cpu c = .running q ii p) :
    (exit c q s).cpu = update s.cpu c (.scan ii p) ∧ ((exit c q s).proc q).state ≠ .running := by
  obtain ⟨hcpu, -⟩ := exit_frame q (s := s)
  rw [exit]
  generalize abandonChildren q (wakeParent q s) = u at hcpu
  rw [becomeZombie, ← hcpu]
  refine ⟨sched_cpu (hcpu ▸ hc), ?_⟩
  rw [sched_proc, addLevel_proc, setProc_proc, update_self]
  simp

theorem wait_cpu {q : Slot} {ii : ℤ} {p : ℕ} (hc : s.cpu c = .running q ii p) :
    (wait c q s).cpu = s.cpu ∨ (wait c q s).cpu = update s.cpu c (.scan ii p) ∧
      ((wait c q s).proc q).state ≠ .running := by
  rw [wait]
  split
  · exact .inl rfl
  · exact .inl rfl
  · exact .inr (sleepAs_leaves hc _ _)

theorem kill_cpu (pid : ℤ) : (kill pid s).cpu = s.cpu := by
  rw [kill]
  split
  · rfl
  · simp only
    split <;> rfl

theorem timer_cpu (q : Slot) : (timer q s).cpu = s.cpu := by
  rw [timer]
  split <;> rfl

theorem allocproc_cpu (q : Slot) : (allocproc q s).cpu = s.cpu := by
  rw [allocproc]
  split <;> rfl

theorem checkStarveAndBoost_cpu : (checkStarveAndBoost s).cpu = s.cpu := by
  refine checkStarveAndBoost_rec (P := fun t ↦ t.cpu = s.cpu) rfl fun t i ht ↦ ?_
  rw [boostOne_eq]
  split
  · exact ht
  · rw [takeSnapshot]
    split <;> exact ht

theorem cpuMove {a : Act ncpu} (hstep : step a s = some t) : CpuMove s a t := by
  cases trans_of_step hstep with
  | acquire hc => exact .acquire hc rfl
  | scan hc => exact .iterate hc
  | @resume _ q _ _ hc _ =>
    rw [resume]
    split
    · exact .stay rfl (by simp)
    · exact .stay rfl (by simp)
    · rcases wait_cpu (s := (s.setChan q none).setPos q .user) hc with hcpu | ⟨hcpu, hq⟩
      · exact .stay hcpu (by simp)
      · exact .leave hc hcpu hq (by simp)
    · exact .stay rfl (by simp)
  | timer => exact .stay (timer_cpu _) (by simp)
  | boost => exact .stay (checkStarveAndBoost_cpu (s := s)) (by simp)
  | yield hq =>
    obtain ⟨_, _, hc⟩ := cpu_of_current hq
    refine .leave hc (sched_cpu hc) ?_ (by simp)
    rw [yield, sched_proc, setProc_proc, update_self]
    simp
  | sleep hq =>
    obtain ⟨_, _, hc⟩ := cpu_of_caller hq
    obtain ⟨hcpu, hq⟩ := sleepAs_leaves hc _ _
    exact .leave hc hcpu hq (by simp)
  | wakeup => exact .stay (wakeup1_frame _).1 (by simp)
  | exit hq =>
    obtain ⟨_, _, hc⟩ := cpu_of_caller hq
    obtain ⟨hcpu, hq⟩ := exit_leaves hc
    exact .leave hc hcpu hq (by simp)
  | wait hq =>
    obtain ⟨_, _, hc⟩ := cpu_of_caller hq
    rcases wait_cpu hc with hcpu | ⟨hcpu, hq⟩
    · exact .stay hcpu (by simp)
    · exact .leave hc hcpu hq (by simp)
  | kill => exact .stay (kill_cpu _) (by simp)
  | fault => exact .stay rfl (by simp)
  | allocproc => exact .stay (allocproc_cpu _) (by simp)
  | forkFail => exact .stay rfl (by simp)
  | forkPublish => exact .stay rfl (by simp)
  | forkLoad => exact .stay rfl (by simp)
  | forkStore => exact .stay rfl (by simp)
  | forkTorn => exact .stay rfl (by simp)
  | fork => exact .stay rfl (by simp)

/-- What one iteration can do to the loop variables. -/
inductive NextIter (proc : Slot → Proc) (ninlevel : ℤ → ℤ) (ii : ℤ) (p : ℕ) : ℤ → ℕ → Prop
  | idle (hp : p < nproc) (hskip : (proc ⟨p, hp⟩).state ≠ .runnable) :
    NextIter proc ninlevel ii p ii (p + 1)
  | other (hp : p < nproc) (htop : ii = highestlevel ninlevel) (hskip : (proc ⟨p, hp⟩).level ≠ ii) :
    NextIter proc ninlevel ii p ii (p + 1)
  | restart (hp : p < nproc) (hrun : (proc ⟨p, hp⟩).state = .runnable)
    (htop : ii ≠ highestlevel ninlevel) : NextIter proc ninlevel ii p (highestlevel ninlevel) 0
  | layer (hp : nproc ≤ p) : NextIter proc ninlevel ii p (ii + 1) 0

theorem nextIter {proc : Slot → Proc} {ninlevel : ℤ → ℤ} {ii ii' : ℤ} {p p' : ℕ}
    (h : iterate proc ninlevel ii p = .next ii' p') :
    ii < nlayer ∧ NextIter proc ninlevel ii p ii' p' := by
  rw [iterate] at h
  split at h
  · next hii =>
    refine ⟨hii, ?_⟩
    split at h
    · next hp =>
      split at h
      · next hskip =>
        obtain ⟨rfl, rfl⟩ : ii = ii' ∧ p + 1 = p' := by simpa using h
        exact .idle hp hskip
      · next hrun =>
        split at h
        · next htop =>
          obtain ⟨rfl, rfl⟩ : highestlevel ninlevel = ii' ∧ 0 = p' := by simpa using h
          exact .restart hp (not_not.mp hrun) htop
        · next htop =>
          split at h
          · next hskip =>
            obtain ⟨rfl, rfl⟩ : ii = ii' ∧ p + 1 = p' := by simpa using h
            exact .other hp (not_not.mp htop) hskip
          · simp at h
    · next hp =>
      obtain ⟨rfl, rfl⟩ : ii + 1 = ii' ∧ 0 = p' := by simpa using h
      exact .layer (not_lt.mp hp)
  · simp at h

theorem iterate_release {proc : Slot → Proc} {ninlevel : ℤ → ℤ} {ii : ℤ} {p : ℕ}
    (h : iterate proc ninlevel ii p = .release) : nlayer ≤ ii := by
  rw [iterate] at h
  split at h
  · split at h
    · split at h
      · simp at h
      · split at h
        · simp at h
        · split at h <;> simp at h
    · simp at h
  · next hii => exact not_lt.mp hii

theorem dispatch_cpu (c : Fin ncpu) (q : Slot) (ii : ℤ) :
    ∃ p, (p = q.1 ∨ p = q.1 + 1) ∧ (dispatch c q ii s).cpu = update s.cpu c (.running q ii p) := by
  rw [dispatch, Cumulative.dispatch]
  simp only
  split
  · exact ⟨q, .inl rfl, rfl⟩
  · split
    · exact ⟨q + 1, .inr rfl, rfl⟩
    · exact ⟨q + 1, .inr rfl, rfl⟩

theorem dispatch_lock (c : Fin ncpu) (q : Slot) (ii : ℤ) : (dispatch c q ii s).lock = s.lock := by
  rw [dispatch, Cumulative.dispatch]
  simp only
  split
  · rfl
  · split <;> rfl

/-- The CPUs' loop variables are in range, and a RUNNING process is on some CPU. -/
structure OnCpu (s : Kernel ncpu) : Prop where
  inRange : ∀ c, (s.cpu c).InRange
  placed : ∀ {q}, (s.proc q).state = .running → ∃ c ii p, s.cpu c = .running q ii p

theorem inRange_update {f : Fin ncpu → Cpu} (h : ∀ c, (f c).InRange) {c : Fin ncpu} {x : Cpu}
    (hx : x.InRange) (c' : Fin ncpu) : (update f c x c').InRange := by
  rcases eq_or_ne c' c with rfl | hne
  · rwa [update_self]
  · rw [update_of_ne hne]
    exact h c'

/-- A process that becomes RUNNING is being dispatched. -/
theorem running_of_step {a : Act ncpu} (hstep : step a s = some t) {q : Slot}
    (hq : (t.proc q).state = .running) : (s.proc q).state = .running ∨
      ∃ c ii p, a = .scan c ∧ s.cpu c = .scan ii p ∧
        iterate s.proc s.ninlevel ii p = .dispatch q := by
  -- only `dispatch` writes RUNNING; the other loud moves write EMBRYO, RUNNABLE or levels
  rcases quiet_or_loud hstep with hquiet | hloud
  · exact .inl ((hquiet.slot q).running hq)
  · cases hloud with
    | @dispatch c ii p r hc hr =>
      rw [dispatch_proc] at hq
      rcases eq_or_ne q r with rfl | hne
      · exact .inr ⟨c, ii, p, rfl, hc, hr⟩
      · rw [update_of_ne hne] at hq
        exact .inl hq
    | @create c r np hr hnp =>
      left
      rw [setPos_state] at hq
      rcases eq_or_ne q np with rfl | hqnp
      · simp [Proc.embryo] at hq
      · simpa [hqnp] using hq
    | @boost c r hl =>
      left
      rwa [setTrap_state, (checkStarveAndBoost_frame q).1] at hq
    | @publish c r np hr =>
      left
      rw [forkPublish, setPos_state] at hq
      rcases eq_or_ne q np with rfl | hqnp
      · simp at hq
      · simpa [hqnp] using hq

theorem scan_step {ii : ℤ} {p : ℕ} (hc : s.cpu c = .scan ii p) :
    step (.scan c) s = some (schedulerStep c ii p s) := by
  rw [step, Cumulative.step, hc]
  rfl

/-- The move makes the RUNNABLE process `q` RUNNING. -/
def Dispatches (m : Move (Kernel ncpu) (Act ncpu)) (q : Slot) : Prop :=
  (m.src.proc q).state = .runnable ∧ (m.dst.proc q).state = .running

theorem dispatches_inv {a : Act ncpu} {q : Slot} (hstep : step a s = some t)
    (hq : Dispatches ⟨s, a, t⟩ q) :
    ∃ c ii p, a = .scan c ∧ s.cpu c = .scan ii p ∧
      iterate s.proc s.ninlevel ii p = .dispatch q ∧ t = dispatch c q ii s := by
  rcases running_of_step hstep hq.2 with hrun | ⟨c, ii, p, rfl, hc, hit⟩
  · have hrunnable := hq.1
    rw [hrun] at hrunnable
    simp at hrunnable
  · rw [scan_step hc, schedulerStep_eq, hit] at hstep
    exact ⟨c, ii, p, rfl, hc, hit, (Option.some.inj hstep).symm⟩

/-- A CPU other than the moving one keeps its process. -/
theorem running_update {f : Fin ncpu → Cpu} {c c' : Fin ncpu} {x : Cpu} {q : Slot} {ii : ℤ} {p : ℕ}
    (hc' : f c' = .running q ii p) (hc : f c ≠ .running q ii p) :
    update f c x c' = .running q ii p := by
  have hne : c' ≠ c := by
    rintro rfl
    exact hc hc'
  rw [update_of_ne hne, hc']

theorem NextIter.inRange {proc : Slot → Proc} {n : ℤ → ℤ} {ii ii' : ℤ} {p p' : ℕ}
    (h : NextIter proc n ii p ii' p') (hii : 0 ≤ ii ∧ ii < nlayer) :
    0 ≤ ii' ∧ ii' ≤ nlayer ∧ p' ≤ nproc := by
  have htop := highestlevel_mem n
  cases h with
  | idle hp | other hp => exact ⟨hii.1, hii.2.le, hp⟩
  | restart => exact ⟨htop.1, htop.2.le, Nat.zero_le _⟩
  | layer => exact ⟨by omega, by omega, Nat.zero_le _⟩

theorem OnCpu.schedulerStep (h : OnCpu s) {ii : ℤ} {p : ℕ} (hc : s.cpu c = .scan ii p) :
    OnCpu (schedulerStep c ii p s) := by
  have hrange := h.inRange c
  rw [hc] at hrange
  rw [schedulerStep_eq]
  split
  · next ii' p' hit =>
    obtain ⟨hii, hnext⟩ := nextIter hit
    refine ⟨inRange_update h.inRange (hnext.inRange ⟨hrange.1, hii⟩), fun {q} hq ↦ ?_⟩
    obtain ⟨c', ii₁, p₁, hc'⟩ := h.placed hq
    exact ⟨c', ii₁, p₁, running_update hc' (by simp [hc])⟩
  · next r hit =>
    obtain ⟨p₁, hp₁, hcpu⟩ := dispatch_cpu (s := s) c r ii
    refine ⟨?_, fun {q} hq ↦ ?_⟩
    · rw [hcpu]
      refine inRange_update h.inRange ⟨hrange.1, hrange.2.1, ?_⟩
      rcases hp₁ with rfl | rfl
      · exact r.2.le
      · exact r.2
    · rw [dispatch_proc] at hq
      rw [hcpu]
      rcases eq_or_ne q r with rfl | hne
      · exact ⟨c, ii, p₁, update_self _ _ _⟩
      · rw [update_of_ne hne] at hq
        obtain ⟨c', ii₂, p₂, hc'⟩ := h.placed hq
        exact ⟨c', ii₂, p₂, running_update hc' (by simp [hc])⟩
  · refine ⟨inRange_update h.inRange trivial, fun {q} hq ↦ ?_⟩
    obtain ⟨c', ii₁, p₁, hc'⟩ := h.placed hq
    exact ⟨c', ii₁, p₁, running_update hc' (by simp [hc])⟩

theorem OnCpu.step (h : OnCpu s) {a : Act ncpu} (hstep : step a s = some t) : OnCpu t := by
  -- outside the layer loop nobody becomes RUNNING
  have hkept : (∀ c, a ≠ .scan c) → ∀ {q}, (t.proc q).state = .running →
      ∃ c ii p, s.cpu c = .running q ii p := by
    intro ha q hq
    rcases running_of_step hstep hq with hold | ⟨c, _, _, rfl, -⟩
    · exact h.placed hold
    · exact absurd rfl (ha c)
  cases cpuMove hstep with
  | stay hcpu ha =>
    refine ⟨fun c ↦ hcpu ▸ h.inRange c, fun {q} hq ↦ ?_⟩
    rw [hcpu]
    exact hkept ha hq
  | acquire hc hcpu =>
    refine ⟨?_, fun {q} hq ↦ ?_⟩
    · rw [hcpu]
      exact inRange_update h.inRange (by simp [Cpu.InRange, nlayer])
    · obtain ⟨c', ii, p, hc'⟩ := hkept (by simp) hq
      rw [hcpu]
      exact ⟨c', ii, p, running_update hc' (by simp [hc])⟩
  | iterate hc => exact h.schedulerStep hc
  -- the process that leaves its CPU is no longer RUNNING
  | @leave _ _ c q ii p hc hcpu hq ha =>
    have hrange := h.inRange c
    rw [hc] at hrange
    refine ⟨?_, fun {r} hr ↦ ?_⟩
    · rw [hcpu]
      exact inRange_update h.inRange hrange
    · obtain ⟨c', ii', p', hc'⟩ := hkept ha hr
      rw [hcpu]
      refine ⟨c', ii', p', running_update hc' ?_⟩
      rw [hc]
      rintro he
      obtain ⟨rfl, -⟩ := Cpu.running.inj he
      exact hq hr

theorem OnCpu.boot : OnCpu (boot ncpu) := by
  refine ⟨fun _ ↦ trivial, fun {q} hq ↦ ?_⟩
  rcases eq_or_ne q initproc with rfl | hne
  · simp [Mlfq.boot] at hq
  · simp [Mlfq.boot, bootProc, hne] at hq

theorem OnCpu.of_reachable (h : Reachable s) : OnCpu s :=
  h.invariant (fun _ h₀ ↦ h₀ ▸ .boot) fun hs hstep _ ↦ hs.step hstep

/-! ## What the other CPUs can do meanwhile -/

/-- Nothing that the layer loop reads changes, or a fork is completed. -/
structure Background (s t : Kernel ncpu) : Prop where
  cpu : t.cpu = s.cpu
  level : ∀ q, (t.proc q).level = (s.proc q).level
  runnable : ∀ q, (s.proc q).state = .runnable → (t.proc q).state = .runnable
  same_or_fork : (t.ninlevel = s.ninlevel ∧
      ∀ q, (t.proc q).state = .runnable → (s.proc q).state = .runnable) ∨
    (t.ninlevel = update s.ninlevel 0 (s.ninlevel 0 + 1) ∧
      ∃ q, (t.proc q).state = .runnable ∧ (t.proc q).level = 0)

theorem Background.of_same (hcpu : t.cpu = s.cpu) (hn : t.ninlevel = s.ninlevel)
    (hlevel : ∀ q, (t.proc q).level = (s.proc q).level)
    (hrun : ∀ q, (t.proc q).state = .runnable ↔ (s.proc q).state = .runnable) : Background s t :=
  ⟨hcpu, hlevel, fun q ↦ (hrun q).mpr, .inl ⟨hn, fun q ↦ (hrun q).mp⟩⟩

theorem setProc_level {q : Slot} {p : Proc} (hlevel : p.level = (s.proc q).level) (r : Slot) :
    ((s.setProc q p).proc r).level = (s.proc r).level := by
  rcases eq_or_ne r q with rfl | hr
  · simpa using hlevel
  · simp [hr]

theorem setProc_state {q : Slot} {p : Proc} (hstate : p.state = (s.proc q).state) (r : Slot) :
    ((s.setProc q p).proc r).state = (s.proc r).state := by
  rcases eq_or_ne r q with rfl | hr
  · simpa using hstate
  · simp [hr]

theorem setPos_level (q r : Slot) (x : Pos) :
    ((s.setPos q x).proc r).level = (s.proc r).level :=
  setProc_level (by rfl) r

theorem Background.timer (q : Slot) : Background s (timer q s) := by
  rw [Mlfq.timer]
  split
  · exact .of_same rfl rfl (fun r ↦ setProc_level (by rfl) r) fun r ↦ by rw [setTrap_state]; rfl
  · exact .of_same rfl rfl (fun r ↦ setProc_level (by rfl) r) fun r ↦ by rw [setTrap_state]; rfl

theorem Background.fault (q : Slot) :
    Background s (s.setProc q { s.proc q with killed := true }) := by
  refine .of_same rfl rfl (fun r ↦ setProc_level (by rfl) r) fun r ↦ ?_
  rw [setProc_state (by rfl)]

/-- The slot given back was EMBRYO. -/
theorem Background.forkFail (h : Shape s) {q np : Slot}
    (hf : (s.proc q).context.pos = .copy np) : Background s (forkFail q np s) := by
  have hemb := (h.copy_embryo hf).1
  rw [Mlfq.forkFail]
  refine .of_same rfl rfl (fun r ↦ ?_) fun r ↦ ?_
  · rw [setPos_level]
    exact setProc_level (by rfl) r
  · rw [setPos_state]
    rcases eq_or_ne r np with rfl | hr
    · simp [hemb]
    · simp [hr]

/-- The new child is RUNNABLE at level 0. -/
theorem Background.fork (h : Shape s) {q np : Slot} (hf : (s.proc q).context.pos = .copy np) :
    Background s (forkCount q (forkPublish q np s)) := by
  have hemb := h.copy_embryo hf
  have hlevel : ∀ r, ((forkCount q (forkPublish q np s)).proc r).level = (s.proc r).level := by
    intro r
    rw [forkCount, setPos_level, addLevel_proc, forkPublish, setPos_level]
    exact setProc_level (by rfl) r
  have hstate : ∀ r, ((forkCount q (forkPublish q np s)).proc r).state
      = if r = np then .runnable else (s.proc r).state := by
    intro r
    rw [forkCount, setPos_state, addLevel_proc, forkPublish, setPos_state]
    rcases eq_or_ne r np with rfl | hr
    · simp
    · simp [hr]
  refine ⟨rfl, hlevel, fun r hr ↦ ?_, .inr ⟨rfl, np, ?_, ?_⟩⟩
  · rw [hstate]
    split
    · rfl
    · exact hr
  · rw [hstate, if_pos rfl]
  · rw [hlevel, hemb.2]

theorem background {a : Act ncpu} (h : Shape s) {ii : ℤ} {p : ℕ} (hc : s.cpu c = .scan ii p)
    (hstep : step a s = some t) (ha : a ≠ .scan c) (hwhole : a.Whole) : Background s t := by
  have hlock := h.scan_lock hc
  cases trans_of_step hstep with
  | scan hc' =>
    have hother := h.scan_lock hc'
    rw [hlock, Option.some.injEq] at hother
    exact absurd (hother ▸ rfl) ha
  | resume hc' hl =>
    rw [hlock, Option.some.injEq] at hl
    rw [← hl, hc] at hc'
    simp at hc'
  | timer => exact .timer _
  | fault => exact .fault _
  | forkFail hq => exact .forkFail h (child_eq_some hq).2
  | @forkPublish c' => exact absurd rfl (hwhole c').1
  | @forkLoad c' => exact absurd rfl (hwhole c').2.1
  | @forkStore c' => exact absurd rfl (hwhole c').2.2.1
  | @forkTorn c' _ _ _ v => exact absurd rfl ((hwhole c').2.2.2 v)
  | fork hq => exact .fork h (child_eq_some hq).2
  -- the rest needs the lock
  | acquire _ hl | boost _ _ hl | yield _ _ hl | sleep _ hl | wakeup hl | exit _ hl | wait _ hl
  | kill _ hl | allocproc _ hl =>
    rw [hlock] at hl
    simp at hl

end CS537.Mlfq
