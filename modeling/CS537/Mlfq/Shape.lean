import CS537.Mlfq.System

/-!
# The shape of reachable process tables

What every move keeps, the level counters aside: levels are indices of `ninlevel`, a CPU runs a
RUNNING process that no other CPU runs, an unfinished `fork` owns an EMBRYO slot of level 0, and
the layer loop is executed by the holder of `ptable.lock`.

The loops over the table (`wakeup1`, the reparenting in `exit`, the starvation check) are folds of
single-slot steps, so it is enough to treat overwriting one slot.
-/

namespace CS537.Mlfq

open Function

variable {ncpu : ℕ} {s : Kernel ncpu}

structure Shape (s : Kernel ncpu) : Prop where
  level_mem : ∀ q, 0 ≤ (s.proc q).level ∧ (s.proc q).level < nlayer
  running : ∀ {c q ii p}, s.cpu c = .running q ii p → (s.proc q).state = .running
  alone : ∀ {c c' q ii p ii' p'}, s.cpu c = .running q ii p → s.cpu c' = .running q ii' p' → c = c'
  count_ready : ∀ {q}, (s.proc q).context.pos.Between → (s.proc q).Ready
  copy_embryo : ∀ {q np}, (s.proc q).context.pos = .copy np →
    (s.proc np).state = .embryo ∧ (s.proc np).level = 0
  copy_alone : ∀ {q q' np}, (s.proc q).context.pos = .copy np →
    (s.proc q').context.pos = .copy np → q = q'
  scan_lock : ∀ {c ii p}, s.cpu c = .scan ii p → s.lock = some c
  lock_busy : ∀ {c}, s.lock = some c → s.cpu c ≠ .idle

/-! ## A process that executes on a CPU is RUNNING -/

namespace Shape

variable {c : Fin ncpu} {q np : Slot}

theorem current_running (h : Shape s) (hq : s.current c = some q) :
    (s.proc q).state = .running := by
  obtain ⟨_, _, hc⟩ := cpu_of_current hq
  exact h.running hc

theorem interruptible_running (h : Shape s) (hq : s.interruptible c = some q) :
    (s.proc q).state = .running :=
  h.current_running (interruptible_eq_some hq).1

theorem caller_running (h : Shape s) (hq : s.caller c = some q) : (s.proc q).state = .running :=
  h.interruptible_running (caller_eq_some hq).1

theorem child_running (h : Shape s) (hq : s.child c = some (q, np)) :
    (s.proc q).state = .running :=
  h.interruptible_running (child_eq_some hq).1

end Shape

/-! ## Field lemmas -/

section Fields

variable (s) (q : Slot) (p : Proc) (c : Fin ncpu)

@[simp] theorem setProc_proc : (s.setProc q p).proc = update s.proc q p := rfl
@[simp] theorem setProc_cpu : (s.setProc q p).cpu = s.cpu := rfl
@[simp] theorem setProc_lock : (s.setProc q p).lock = s.lock := rfl
@[simp] theorem setProc_ninlevel : (s.setProc q p).ninlevel = s.ninlevel := rfl
@[simp] theorem addLevel_proc (l d : ℤ) : (s.addLevel l d).proc = s.proc := rfl
@[simp] theorem addLevel_cpu (l d : ℤ) : (s.addLevel l d).cpu = s.cpu := rfl
@[simp] theorem addLevel_lock (l d : ℤ) : (s.addLevel l d).lock = s.lock := rfl
@[simp] theorem setCpu_proc (x : Cpu) : (s.setCpu c x).proc = s.proc := rfl
@[simp] theorem setCpu_cpu (x : Cpu) : (s.setCpu c x).cpu = update s.cpu c x := rfl
@[simp] theorem setCpu_lock (x : Cpu) : (s.setCpu c x).lock = s.lock := rfl
@[simp] theorem setCpu_ninlevel (x : Cpu) : (s.setCpu c x).ninlevel = s.ninlevel := rfl
@[simp] theorem setLock_proc (x : Option (Fin ncpu)) : (s.setLock x).proc = s.proc := rfl
@[simp] theorem setLock_cpu (x : Option (Fin ncpu)) : (s.setLock x).cpu = s.cpu := rfl
@[simp] theorem setLock_lock (x : Option (Fin ncpu)) : (s.setLock x).lock = x := rfl
@[simp] theorem setLock_ninlevel (x : Option (Fin ncpu)) :
    (s.setLock x).ninlevel = s.ninlevel := rfl

@[simp] theorem bumpPid_proc : s.bumpPid.proc = s.proc := rfl

theorem setProc_comm {q q' : Slot} (h : q ≠ q') (p p' : Proc) :
    (s.setProc q p).setProc q' p' = (s.setProc q' p').setProc q p := by
  rw [Kernel.setProc, Kernel.setProc, Kernel.setProc, Kernel.setProc]
  simp only
  rw [update_comm h]

@[simp] theorem sched_proc : (sched c s).proc = s.proc := by
  rw [sched]
  split <;> rfl

@[simp] theorem sched_ninlevel : (sched c s).ninlevel = s.ninlevel := by
  rw [sched]
  split <;> rfl

/-- `sched` does not look at the table. -/
theorem sched_setProc : sched c (s.setProc q p) = (sched c s).setProc q p := by
  rw [sched, sched, setProc_cpu]
  split <;> rfl

theorem sched_addLevel (l d : ℤ) : sched c (s.addLevel l d) = (sched c s).addLevel l d := by
  rw [sched, sched, addLevel_cpu]
  split <;> rfl

end Fields

/-! ## Overwriting one slot -/

/-- The counters and the clocks are not part of the shape. -/
theorem Shape.of_eq {t : Kernel ncpu} (h : Shape s) (hp : t.proc = s.proc) (hc : t.cpu = s.cpu)
    (hl : t.lock = s.lock) : Shape t := by
  constructor
  · rw [hp]; exact h.level_mem
  · rw [hp, hc]; exact h.running
  · rw [hc]; exact h.alone
  · rw [hp]; exact h.count_ready
  · rw [hp]; exact h.copy_embryo
  · rw [hp]; exact h.copy_alone
  · rw [hc, hl]; exact h.scan_lock
  · rw [hc, hl]; exact h.lock_busy

theorem Shape.addLevel (h : Shape s) (l d : ℤ) : Shape (s.addLevel l d) := h.of_eq rfl rfl rfl

theorem Shape.setLevel (h : Shape s) (l v : ℤ) : Shape (s.setLevel l v) := h.of_eq rfl rfl rfl

theorem Shape.bumpPid (h : Shape s) : Shape s.bumpPid := h.of_eq rfl rfl rfl

/-- A slot may be overwritten if its level stays an index, a process some CPU runs stays RUNNING,
a slot some `fork` owns stays as it is, and no `fork` moves on. -/
theorem Shape.setProc (h : Shape s) {q : Slot} {p : Proc}
    (hlevel : 0 ≤ p.level ∧ p.level < nlayer)
    (hrun : ∀ c ii i, s.cpu c = .running q ii i → p.state = .running)
    (hown : ∀ r, (s.proc r).context.pos = .copy q → p.state = .embryo ∧ p.level = 0)
    (hpos : ∀ np, p.context.pos = .copy np → (s.proc q).context.pos = .copy np)
    (hready : p.context.pos.Between → p.Ready) : Shape (s.setProc q p) := by
  have hforks : ∀ {r np}, ((s.setProc q p).proc r).context.pos = .copy np →
      (s.proc r).context.pos = .copy np := by
    intro r np hr
    rcases eq_or_ne r q with rfl | hrq
    · rw [setProc_proc, update_self] at hr
      exact hpos np hr
    · rwa [setProc_proc, update_of_ne hrq] at hr
  constructor
  · intro r
    rcases eq_or_ne r q with rfl | hr
    · rwa [setProc_proc, update_self]
    · rw [setProc_proc, update_of_ne hr]
      exact h.level_mem r
  · intro c r ii i hc
    rcases eq_or_ne r q with rfl | hr
    · rw [setProc_proc, update_self]
      exact hrun c ii i hc
    · rw [setProc_proc, update_of_ne hr]
      exact h.running hc
  · exact h.alone
  · intro r hr
    rcases eq_or_ne r q with rfl | hrq
    · rw [setProc_proc, update_self] at hr ⊢
      exact hready hr
    · rw [setProc_proc, update_of_ne hrq] at hr ⊢
      exact h.count_ready hr
  · intro r np hr
    rcases eq_or_ne np q with rfl | hnp
    · rw [setProc_proc, update_self]
      exact hown r (hforks hr)
    · rw [setProc_proc, update_of_ne hnp]
      exact h.copy_embryo (hforks hr)
  · intro r r' np hr hr'
    exact h.copy_alone (hforks hr) (hforks hr')
  · exact h.scan_lock
  · exact h.lock_busy

/-- Overwriting a slot without touching state, level and position. -/
theorem Shape.setProc_same (h : Shape s) {q : Slot} {p : Proc}
    (hstate : p.state = (s.proc q).state) (hlevel : p.level = (s.proc q).level)
    (hpos : p.context.pos = (s.proc q).context.pos) : Shape (s.setProc q p) := by
  refine h.setProc ?_ ?_ ?_ (fun np hnp ↦ hpos ▸ hnp) ?_
  · rw [hlevel]
    exact h.level_mem q
  · intro c ii i hc
    rw [hstate]
    exact h.running hc
  · intro r hr
    rw [hstate, hlevel]
    exact h.copy_embryo hr
  · intro hq
    rw [Proc.Ready, hstate]
    exact h.count_ready (hpos ▸ hq)

theorem Shape.not_running (h : Shape s) {q : Slot} (hq : (s.proc q).state ≠ .running)
    (c : Fin ncpu) (ii : ℤ) (i : ℕ) : s.cpu c ≠ .running q ii i :=
  fun hc ↦ hq (h.running hc)

theorem Shape.not_owned (h : Shape s) {q : Slot} (hq : (s.proc q).state ≠ .embryo) (r : Slot) :
    (s.proc r).context.pos ≠ .copy q :=
  fun hr ↦ hq (h.copy_embryo hr).1

theorem Shape.setTrap (h : Shape s) (q : Slot) (x : TrapPos) : Shape (s.setTrap q x) :=
  h.setProc_same rfl rfl rfl

theorem Shape.setChan (h : Shape s) (q : Slot) (x : Option Chan) : Shape (s.setChan q x) :=
  h.setProc_same rfl rfl rfl

theorem Shape.setPos (h : Shape s) {q : Slot} {x : Pos}
    (hready : x.Between → (s.proc q).Ready)
    (hx : ∀ np, x = .copy np → (s.proc np).state = .embryo ∧ (s.proc np).level = 0 ∧
      ∀ r, r ≠ q → (s.proc r).context.pos ≠ .copy np) : Shape (s.setPos q x) := by
  have hsame : ∀ r, ((s.setPos q x).proc r).state = (s.proc r).state
      ∧ ((s.setPos q x).proc r).level = (s.proc r).level := by
    intro r
    rcases eq_or_ne r q with rfl | hr
    · simp [Kernel.setPos]
    · simp [Kernel.setPos, hr]
  have hpos : ∀ r, ((s.setPos q x).proc r).context.pos
      = if r = q then x else (s.proc r).context.pos := by
    intro r
    rcases eq_or_ne r q with rfl | hr
    · simp [Kernel.setPos]
    · simp [Kernel.setPos, hr]
  constructor
  · intro r
    rw [(hsame r).2]
    exact h.level_mem r
  · intro c r ii i hc
    rw [(hsame r).1]
    exact h.running hc
  · exact h.alone
  · intro r hr
    rw [Proc.Ready, (hsame r).1]
    rw [hpos] at hr
    split at hr
    · next hrq => exact hrq ▸ hready hr
    · exact h.count_ready hr
  · intro r np hr
    rw [(hsame np).1, (hsame np).2]
    rw [hpos] at hr
    split at hr
    · exact ⟨(hx np hr).1, (hx np hr).2.1⟩
    · exact h.copy_embryo hr
  · intro r r' np hr hr'
    rw [hpos] at hr hr'
    split at hr <;> split at hr'
    · next hrq hrq' => rw [hrq, hrq']
    · next hrq' => exact absurd hr' ((hx np hr).2.2 r' hrq')
    · next hrq _ => exact absurd hr ((hx np hr').2.2 r hrq)
    · exact h.copy_alone hr hr'
  · exact h.scan_lock
  · exact h.lock_busy

theorem Shape.setPos_user (h : Shape s) (q : Slot) : Shape (s.setPos q .user) :=
  h.setPos (by simp) (by simp)

/-! ## The critical sections -/

section Sections

variable {c : Fin ncpu} {q : Slot}

/-- Waking a sleeper, whoever does it. -/
theorem Shape.wake (h : Shape s) {p : Proc} (hq : (s.proc q).state = .sleeping)
    (hstate : p.state = .runnable) (hlevel : p.level = (s.proc q).level)
    (hpos : p.context.pos = (s.proc q).context.pos) : Shape (s.setProc q p) := by
  refine h.setProc (hlevel ▸ h.level_mem q) ?_ ?_ (fun np hnp ↦ hpos ▸ hnp) fun _ ↦ .inl hstate
  · intro c ii i hc
    exact absurd hc (h.not_running (by simp [hq]) c ii i)
  · intro r hr
    exact absurd hr (h.not_owned (by simp [hq]) r)

theorem Shape.wakeOne (h : Shape s) (chan : Chan) (q : Slot) : Shape (wakeOne chan s q) := by
  rw [Mlfq.wakeOne]
  split
  · next hq =>
    refine Shape.addLevel (h.wake hq.1 ?_ ?_ ?_) _ _ <;> rfl
  · exact h

/-- What waking a single slot keeps, `wakeup1` keeps. -/
theorem wakeup1_rec {P : Kernel ncpu → Prop} (chan : Chan) (h : P s)
    (hone : ∀ t q, P t → P (Mlfq.wakeOne chan t q)) : P (wakeup1 chan s) := by
  rw [wakeup1]
  exact List.foldlRecOn slots _ h fun t ht q _ ↦ hone t q ht

theorem Shape.wakeup1 (h : Shape s) (chan : Chan) : Shape (wakeup1 chan s) :=
  wakeup1_rec chan h fun _ q ht ↦ ht.wakeOne chan q

/-- The frame of `wakeup1`: CPUs, lock, and everything about a slot but its state. -/
theorem wakeup1_frame (chan : Chan) :
    (wakeup1 chan s).cpu = s.cpu ∧ (wakeup1 chan s).lock = s.lock ∧
      ∀ r, ((wakeup1 chan s).proc r).context = (s.proc r).context := by
  refine wakeup1_rec (P := fun t ↦ t.cpu = s.cpu ∧ t.lock = s.lock ∧
    ∀ r, (t.proc r).context = (s.proc r).context) chan ⟨rfl, rfl, fun _ ↦ rfl⟩ ?_
  rintro t q ⟨hcpu, hlock, hctx⟩
  rw [Mlfq.wakeOne]
  split
  · refine ⟨hcpu, hlock, fun r ↦ ?_⟩
    rw [← hctx r]
    rcases eq_or_ne r q with rfl | hr
    · simp
    · simp [hr]
  · exact ⟨hcpu, hlock, hctx⟩

theorem Shape.kill (h : Shape s) (pid : ℤ) : Shape (kill pid s) := by
  rw [Mlfq.kill]
  split
  · exact h
  · next q _ =>
    simp only
    split
    · next hq =>
      refine Shape.addLevel (h.wake hq ?_ ?_ ?_) _ _ <;> rfl
    · exact h.setProc_same rfl rfl rfl

/-- A process that calls `sched` leaves its CPU; nothing else about the shape changes. -/
theorem Shape.sched (h : Shape s) {ii : ℤ} {i : ℕ} (hc : s.cpu c = .running q ii i)
    (hl : s.lock = none ∨ s.lock = some c) :
    Shape (sched c s) ∧ ∀ c' ii' i', (sched c s).cpu c' ≠ .running q ii' i' := by
  have hcpu : (Mlfq.sched c s).cpu = update s.cpu c (.scan ii i) := by
    rw [Mlfq.sched, hc]
    rfl
  have hlock : (Mlfq.sched c s).lock = some c := by
    rw [Mlfq.sched, hc]
    rfl
  -- a CPU still running a process ran it before
  have hold : ∀ {c' r ii' i'}, (Mlfq.sched c s).cpu c' = .running r ii' i' →
      c' ≠ c ∧ s.cpu c' = .running r ii' i' := by
    intro c' r ii' i' hr
    rw [hcpu] at hr
    rcases eq_or_ne c' c with rfl | hne
    · simp at hr
    · exact ⟨hne, by rwa [update_of_ne hne] at hr⟩
  refine ⟨⟨?_, ?_, ?_, ?_, ?_, ?_, ?_, ?_⟩, ?_⟩
  · rw [sched_proc]; exact h.level_mem
  · intro c' r ii' i' hr
    rw [sched_proc]
    exact h.running (hold hr).2
  · intro c₁ c₂ r _ _ _ _ h₁ h₂
    exact h.alone (hold h₁).2 (hold h₂).2
  · rw [sched_proc]; exact h.count_ready
  · rw [sched_proc]; exact h.copy_embryo
  · rw [sched_proc]; exact h.copy_alone
  · intro c' ii' i' hr
    rw [hcpu] at hr
    rcases eq_or_ne c' c with rfl | hne
    · exact hlock
    · rw [update_of_ne hne] at hr
      have hown := h.scan_lock hr
      rcases hl with hl | hl <;> rw [hl] at hown <;> simp_all
  · intro c' hc' hidle
    rw [hlock, Option.some.injEq] at hc'
    rw [hcpu, ← hc', update_self] at hidle
    simp at hidle
  · intro c' ii' i' hr
    obtain ⟨hne, hr⟩ := hold hr
    exact hne (h.alone hr hc)

/-- The running process of `c` changes its state and calls `sched`. -/
theorem Shape.leave (h : Shape s) {ii : ℤ} {i : ℕ} (hc : s.cpu c = .running q ii i)
    (hl : s.lock = none ∨ s.lock = some c) {p : Proc} (hlevel : p.level = (s.proc q).level)
    (hpos : ∀ np, p.context.pos = .copy np → (s.proc q).context.pos = .copy np)
    (hready : p.context.pos.Between → p.Ready) : Shape (Mlfq.sched c (s.setProc q p)) := by
  obtain ⟨hs, hgone⟩ := h.sched hc hl
  rw [sched_setProc]
  refine hs.setProc ?_ ?_ ?_ ?_ hready
  · exact hlevel ▸ h.level_mem q
  · intro c' ii' i' hc'
    exact absurd hc' (hgone c' ii' i')
  · intro r hr
    rw [sched_proc] at hr
    exact absurd hr (h.not_owned (by simp [h.running hc]) r)
  · rw [sched_proc]
    exact hpos

theorem Shape.sleepAs (h : Shape s) {ii : ℤ} {i : ℕ} (hc : s.cpu c = .running q ii i)
    (hl : s.lock = none ∨ s.lock = some c) {x : Pos} (hx : ∀ np, x ≠ .copy np)
    (hbetween : ¬x.Between) (chan : Chan) : Shape (sleepAs x chan c q s) := by
  rw [Mlfq.sleepAs, sched_addLevel]
  refine Shape.addLevel (h.leave hc hl ?_ ?_ ?_) _ _
  · rfl
  · exact fun np hnp ↦ absurd hnp (hx np)
  · exact fun hq ↦ absurd hq hbetween

theorem Shape.yield (h : Shape s) {ii : ℤ} {i : ℕ} (hc : s.cpu c = .running q ii i)
    (hl : s.lock = none) : Shape (yield c q s) := by
  rw [Mlfq.yield]
  refine h.leave hc (.inl hl) ?_ ?_ fun _ ↦ .inl rfl
  · rfl
  · exact fun np hnp ↦ hnp

theorem Shape.setLock_none (h : Shape s) (hl : s.lock = none ∨ ∃ c, s.lock = some c ∧
    ∀ ii i, s.cpu c ≠ .scan ii i) : Shape (s.setLock none) := by
  refine ⟨h.level_mem, h.running, h.alone, h.count_ready, h.copy_embryo, h.copy_alone, ?_, ?_⟩
  · intro c' ii i hc'
    have hown := h.scan_lock hc'
    rcases hl with hl | ⟨c, hl, hc⟩
    · simp [hl] at hown
    · rw [hl, Option.some.injEq] at hown
      exact absurd hc' (hown ▸ hc ii i)
  · intro c' hc'
    simp at hc'

theorem Shape.allocproc (h : Shape s) (hq : (s.proc q).state = .running) :
    Shape (allocproc q s) := by
  rw [Mlfq.allocproc]
  split
  · exact h
  · next np hnp =>
    have hunused : (s.proc np).state = .unused := by simpa using List.find?_some hnp
    have hne : q ≠ np := fun he ↦ by simp [← he, hq] at hunused
    have hfresh : ∀ r, (s.proc r).context.pos ≠ .copy np := h.not_owned (by simp [hunused])
    have hs : Shape (s.setProc np ((s.proc np).embryo s.nextpid)) := by
      refine h.setProc ⟨le_rfl, by simp [Proc.embryo, nlayer]⟩ ?_ ?_ (by simp [Proc.embryo])
        (by simp [Proc.embryo])
      · intro c ii i hc
        exact absurd hc (h.not_running (by simp [hunused]) c ii i)
      · intro r hr
        exact absurd hr (hfresh r)
    refine Shape.setPos hs.bumpPid (by simp) ?_
    intro np' hnp'
    obtain rfl : np = np' := by simpa using hnp'
    refine ⟨by simp [Proc.embryo], by simp [Proc.embryo], fun r hr ↦ ?_⟩
    rcases eq_or_ne r np with rfl | hrn
    · simp [Proc.embryo]
    · simpa [update_of_ne hrn] using hfresh r

/-- A running `fork` is not the slot it prepares. -/
theorem Shape.child_ne (h : Shape s) {np : Slot} (hq : (s.proc q).context.pos = .copy np)
    (hrun : (s.proc q).state = .running) : np ≠ q := by
  rintro rfl
  have hemb := (h.copy_embryo hq).1
  rw [hrun] at hemb
  simp at hemb

/-- The end of a `fork` that owns `np`: `np` leaves EMBRYO and the parent's `fork` moves on. -/
theorem Shape.disown (h : Shape s) {np : Slot} (hq : (s.proc q).context.pos = .copy np)
    (hrun : (s.proc q).state = .running) {p : Proc} (hlevel : p.level = 0)
    (hpos : p.context.pos = (s.proc np).context.pos) {x : Pos} (hx : ∀ np', x ≠ .copy np') :
    Shape ((s.setProc np p).setPos q x) := by
  have hemb := (h.copy_embryo hq).1
  have hne := h.child_ne hq hrun
  have hcomm : (s.setProc np p).setPos q x = (s.setPos q x).setProc np p := by
    rw [Kernel.setPos, Kernel.setPos, setProc_comm _ hne, setProc_proc, update_of_ne hne.symm]
  rw [hcomm]
  have hs : Shape (s.setPos q x) := 
    h.setPos (fun _ ↦ .inr hrun) fun np' hnp' ↦ absurd hnp' (hx np')
  have hfn : ((s.setPos q x).proc np).context.pos = (s.proc np).context.pos := by
    simp [Kernel.setPos, update_of_ne hne]
  refine hs.setProc ?_ ?_ ?_ ?_ ?_
  · simp [hlevel, nlayer]
  · intro c ii i hc
    exact absurd hc (h.not_running (by simp [hemb]) c ii i)
  · -- the only `fork` that owned `np` has moved on
    intro r hr
    rcases eq_or_ne r q with rfl | hrq
    · simp only [Kernel.setPos, setProc_proc, update_self] at hr
      exact absurd hr (hx np)
    · simp only [Kernel.setPos, setProc_proc, update_of_ne hrq] at hr
      exact absurd (h.copy_alone hr hq) hrq
  · intro np' hnp'
    rw [hfn, ← hpos, hnp']
  · intro hbetween
    have hready := h.count_ready (hpos ▸ hbetween)
    simp [Proc.Ready, hemb] at hready

theorem Shape.forkFail (h : Shape s) {np : Slot} (hq : (s.proc q).context.pos = .copy np)
    (hrun : (s.proc q).state = .running) : Shape (forkFail q np s) := by
  refine h.disown hq hrun ?_ ?_ ?_
  · exact (h.copy_embryo hq).2
  · rfl
  · simp

theorem Shape.forkPublish (h : Shape s) {np : Slot} (hq : (s.proc q).context.pos = .copy np)
    (hrun : (s.proc q).state = .running) : Shape (forkPublish q np s) := by
  refine h.disown hq hrun ?_ ?_ ?_
  · exact (h.copy_embryo hq).2
  · rfl
  · simp

theorem Shape.forkLoad (h : Shape s) (hrun : (s.proc q).state = .running) (np : Slot) :
    Shape (forkLoad q np s) := by
  rw [Mlfq.forkLoad]
  exact h.setPos (fun _ ↦ .inr hrun) (by simp)

theorem Shape.forkStore (h : Shape s) (q : Slot) (v : ℤ) : Shape (forkStore q v s) := by
  rw [Mlfq.forkStore]
  have hs := h.setLevel 0 v
  exact hs.setPos_user q

theorem Shape.forkCount (h : Shape s) (q : Slot) : Shape (forkCount q s) := by
  rw [Mlfq.forkCount]
  exact (h.addLevel 0 1).setPos (by simp) (by simp)

theorem Shape.reparentOne (h : Shape s) (q p : Slot) : Shape (reparentOne q s p) := by
  rw [Mlfq.reparentOne]
  split
  · have hs : Shape (s.setProc p { s.proc p with parent := some initproc }) :=
      h.setProc_same rfl rfl rfl
    simp only
    split
    · exact hs.wakeup1 _
    · exact hs
  · exact h

theorem reparentOne_frame (q p : Slot) :
    (reparentOne q s p).cpu = s.cpu ∧ (reparentOne q s p).lock = s.lock ∧
      ∀ r, ((reparentOne q s p).proc r).context = (s.proc r).context := by
  have hset : ∀ r, ((s.setProc p { s.proc p with parent := some initproc }).proc r).context
      = (s.proc r).context := by
    intro r
    rcases eq_or_ne r p with rfl | hr
    · simp
    · simp [hr]
  rw [Mlfq.reparentOne]
  split
  · simp only
    split
    · obtain ⟨hcpu, hlock, hctx⟩ := wakeup1_frame (.proc initproc)
        (s := s.setProc p { s.proc p with parent := some initproc })
      refine ⟨?_, ?_, fun r ↦ ?_⟩
      · rw [hcpu, setProc_cpu]
      · rw [hlock, setProc_lock]
      · rw [hctx, hset]
    · exact ⟨rfl, rfl, hset⟩
  · exact ⟨rfl, rfl, fun _ ↦ rfl⟩

/-- What the loops of `wakeup1` and of the reparenting keep, `exit` has kept when it becomes a
zombie. -/
theorem exit_rec {P : Kernel ncpu → Prop} (q : Slot) (h : P s)
    (hwake : ∀ t chan, P t → P (Mlfq.wakeup1 chan t))
    (hparent : ∀ t p, P t → P (Mlfq.reparentOne q t p)) :
    P (abandonChildren q (wakeParent q s)) := by
  have hparents : P (wakeParent q s) := by
    rw [wakeParent]
    split
    · exact hwake _ _ h
    · exact h
  rw [abandonChildren]
  exact List.foldlRecOn slots _ hparents fun t ht p _ ↦ hparent t p ht

/-- Up to its last statements `exit` runs the process it ran, on the same CPU. -/
theorem exit_frame (q : Slot) :
    (abandonChildren q (wakeParent q s)).cpu = s.cpu ∧
      (abandonChildren q (wakeParent q s)).lock = s.lock ∧
      ∀ r, ((abandonChildren q (wakeParent q s)).proc r).context = (s.proc r).context := by
  refine exit_rec (P := fun t ↦ t.cpu = s.cpu ∧ t.lock = s.lock ∧
    ∀ r, (t.proc r).context = (s.proc r).context) q ⟨rfl, rfl, fun _ ↦ rfl⟩ ?_ ?_
  · rintro t chan ⟨hcpu, hlock, hctx⟩
    obtain ⟨hcpu', hlock', hctx'⟩ := wakeup1_frame chan (s := t)
    exact ⟨hcpu'.trans hcpu, hlock'.trans hlock, fun r ↦ (hctx' r).trans (hctx r)⟩
  · rintro t p ⟨hcpu, hlock, hctx⟩
    obtain ⟨hcpu', hlock', hctx'⟩ := reparentOne_frame q p (s := t)
    exact ⟨hcpu'.trans hcpu, hlock'.trans hlock, fun r ↦ (hctx' r).trans (hctx r)⟩

theorem Shape.becomeZombie (h : Shape s) {ii : ℤ} {i : ℕ} (hc : s.cpu c = .running q ii i)
    (hl : s.lock = none) (hpos : (s.proc q).context.pos = .user) :
    Shape (becomeZombie c q s) := by
  rw [Mlfq.becomeZombie, sched_addLevel]
  refine Shape.addLevel (h.leave hc (.inl hl) ?_ ?_ ?_) _ _
  · rfl
  · exact fun np hnp ↦ hnp
  · simp [hpos]

theorem Shape.exit (h : Shape s) {ii : ℤ} {i : ℕ} (hc : s.cpu c = .running q ii i)
    (hl : s.lock = none) (hpos : (s.proc q).context.pos = .user) : Shape (exit c q s) := by
  have hs : Shape (abandonChildren q (wakeParent q s)) :=
    exit_rec q h (fun _ chan ht ↦ ht.wakeup1 chan) fun _ p ht ↦ ht.reparentOne q p
  obtain ⟨hcpu, hlock, hctx⟩ := exit_frame q (s := s)
  rw [Mlfq.exit]
  have hc' : (abandonChildren q (wakeParent q s)).cpu c = .running q ii i := by rw [hcpu, hc]
  refine hs.becomeZombie hc' ?_ ?_
  · rw [hlock, hl]
  · rw [hctx, hpos]

/-- Once the running process is back from `sched`, its CPU may give up the lock. -/
theorem Shape.unlock (h : Shape s) {ii : ℤ} {i : ℕ} (hc : s.cpu c = .running q ii i)
    (hl : s.lock = none ∨ s.lock = some c) : Shape (s.setLock none) := by
  refine h.setLock_none (hl.imp_right fun hl ↦ ⟨c, hl, fun ii' i' ↦ ?_⟩)
  rw [hc]
  simp

theorem Shape.reap (h : Shape s) {p : Proc} (hq : (s.proc q).state = .zombie)
    (hlevel : p.level = (s.proc q).level) (hctx : p.context = (s.proc q).context) :
    Shape (s.setProc q p) := by
  refine h.setProc (hlevel ▸ h.level_mem q) ?_ ?_ (fun np hnp ↦ hctx ▸ hnp) ?_
  · intro c ii i hc
    exact absurd hc (h.not_running (by simp [hq]) c ii i)
  · intro r hr
    exact absurd hr (h.not_owned (by simp [hq]) r)
  · intro hbetween
    have hready := h.count_ready (hctx ▸ hbetween)
    simp [Proc.Ready, hq] at hready

theorem waitScan_reap {q p : Slot} {pid : ℤ} (h : waitScan q s = .reap p pid) :
    (s.proc p).parent = some q ∧ (s.proc p).state = .zombie := by
  rw [waitScan] at h
  split at h
  · next r hr =>
    obtain ⟨rfl, -⟩ : r = p ∧ _ := by simpa using h
    simpa using List.find?_some hr
  · split at h <;> simp at h

theorem Shape.wait (h : Shape s) {ii : ℤ} {i : ℕ} (hc : s.cpu c = .running q ii i)
    (hl : s.lock = none ∨ s.lock = some c) : Shape (wait c q s) := by
  rw [Mlfq.wait]
  split
  · next p pid hp =>
    refine Shape.unlock (c := c) (q := q) (Shape.reap h (waitScan_reap hp).2 ?_ ?_) hc hl
    · rfl
    · rfl
  · exact h.unlock hc hl
  · exact h.sleepAs hc hl (by simp) (by simp) _

/-! ### The scheduler -/

/-- A CPU moves, and the lock with it. -/
theorem Shape.setCpu (h : Shape s) {c : Fin ncpu} {x : Cpu} {l : Option (Fin ncpu)}
    (hrun : ∀ q ii i, x = .running q ii i → (s.proc q).state = .running ∧
      ∀ c' ii' i', s.cpu c' ≠ .running q ii' i')
    (hscan : ∀ c' ii i, update s.cpu c x c' = .scan ii i → l = some c')
    (hbusy : ∀ c', l = some c' → update s.cpu c x c' ≠ .idle) :
    Shape ((s.setCpu c x).setLock l) := by
  refine ⟨h.level_mem, ?_, ?_, h.count_ready, h.copy_embryo, h.copy_alone, @hscan, @hbusy⟩
  · intro c' q ii i hc'
    rcases eq_or_ne c' c with rfl | hne
    · simp only [setLock_cpu, setCpu_cpu, update_self] at hc'
      exact (hrun q ii i hc').1
    · simp only [setLock_cpu, setCpu_cpu, update_of_ne hne] at hc'
      exact h.running hc'
  · intro c₁ c₂ q ii₁ i₁ ii₂ i₂ h₁ h₂
    simp only [setLock_cpu, setCpu_cpu] at h₁ h₂
    by_cases hc₁ : c₁ = c <;> by_cases hc₂ : c₂ = c
    · rw [hc₁, hc₂]
    · rw [hc₁, update_self] at h₁
      rw [update_of_ne hc₂] at h₂
      exact absurd h₂ ((hrun q ii₁ i₁ h₁).2 c₂ ii₂ i₂)
    · rw [hc₂, update_self] at h₂
      rw [update_of_ne hc₁] at h₁
      exact absurd h₁ ((hrun q ii₂ i₂ h₂).2 c₁ ii₁ i₁)
    · rw [update_of_ne hc₁] at h₁
      rw [update_of_ne hc₂] at h₂
      exact h.alone h₁ h₂

theorem Shape.acquire (h : Shape s) (hl : s.lock = none) :
    Shape ((s.setCpu c (.scan 0 0)).setLock (some c)) := by
  refine h.setCpu (by simp) ?_ ?_
  · intro c' ii i hc'
    rcases eq_or_ne c' c with rfl | hne
    · rfl
    · rw [update_of_ne hne] at hc'
      exact absurd (h.scan_lock hc') (by simp [hl])
  · intro c' hc'
    obtain rfl : c = c' := by simpa using hc'
    simp

/-- The lock holder moves on inside the layer loop or to a process. -/
theorem Shape.moveOn (h : Shape s) {ii : ℤ} {i : ℕ} (hc : s.cpu c = .scan ii i) {x : Cpu}
    (hx : x ≠ .idle) (hrun : ∀ q ii i, x = .running q ii i → (s.proc q).state = .running ∧
      ∀ c' ii' i', s.cpu c' ≠ .running q ii' i') : Shape (s.setCpu c x) := by
  have hl := h.scan_lock hc
  have hs : Shape ((s.setCpu c x).setLock (some c)) := by
    refine h.setCpu hrun ?_ ?_
    · intro c' ii i hc'
      rcases eq_or_ne c' c with rfl | hne
      · rfl
      · rw [update_of_ne hne] at hc'
        exact hl ▸ h.scan_lock hc'
    · intro c' hc'
      obtain rfl : c = c' := by simpa using hc'
      simpa using hx
  exact hs.of_eq rfl rfl hl

theorem Shape.release (h : Shape s) {ii : ℤ} {i : ℕ} (hc : s.cpu c = .scan ii i) :
    Shape ((s.setCpu c .idle).setLock none) := by
  refine h.setCpu (by simp) ?_ (by simp)
  intro c' ii' i' hc'
  rcases eq_or_ne c' c with rfl | hne
  · simp at hc'
  · rw [update_of_ne hne] at hc'
    have hother := h.scan_lock hc'
    rw [h.scan_lock hc, Option.some.injEq] at hother
    exact absurd hother.symm hne

/-- A RUNNABLE process is made RUNNING on the CPU that holds the lock. -/
theorem Shape.enter (h : Shape s) {ii ii' : ℤ} {i i' : ℕ} (hc : s.cpu c = .scan ii i)
    (hq : (s.proc q).state = .runnable) {p : Proc} (hstate : p.state = .running)
    (hlevel : 0 ≤ p.level ∧ p.level < nlayer) (hctx : p.context = (s.proc q).context) :
    Shape ((s.setProc q p).setCpu c (.running q ii' i')) := by
  have hnot := h.not_running (q := q) (by simp [hq])
  have hs : Shape (s.setProc q p) := by
    refine h.setProc hlevel (fun _ _ _ _ ↦ hstate) ?_ (fun np hnp ↦ hctx ▸ hnp)
      fun _ ↦ .inr hstate
    intro r hr
    exact absurd hr (h.not_owned (by simp [hq]) r)
  refine hs.moveOn hc (by simp) ?_
  intro r ii₁ i₁ hr
  obtain ⟨rfl, -, -⟩ : q = r ∧ ii' = ii₁ ∧ i' = i₁ := by simpa using hr
  exact ⟨by simp [hstate], hnot⟩

theorem Shape.dispatch (h : Shape s) {ii : ℤ} {i : ℕ} (hc : s.cpu c = .scan ii i)
    (hq : (s.proc q).state = .runnable) : Shape (dispatch c q ii s) := by
  have hmem := h.level_mem q
  rw [Mlfq.dispatch, Cumulative.dispatch]
  simp only
  split
  · exact Shape.enter h hc hq rfl hmem rfl
  · split
    · next hlast =>
      have hlevel : 0 ≤ (s.proc q).level + 1 ∧ (s.proc q).level + 1 < nlayer := by omega
      have hs : Shape (s.addLevel (s.proc q).level (-1)) := h.addLevel _ _
      exact Shape.of_eq (Shape.enter hs hc hq (p := { s.proc q with
          state := .running
          timeticks := update (s.proc q).timeticks (s.proc q).level _
          level := (s.proc q).level + 1 }) rfl hlevel rfl) rfl rfl rfl
    · exact Shape.enter h hc hq rfl hmem rfl

theorem iterate_dispatch {proc : Slot → Proc} {ninlevel : ℤ → ℤ} {ii : ℤ} {p : ℕ}
    (h : iterate proc ninlevel ii p = .dispatch q) :
    (proc q).state = .runnable ∧ (proc q).level = ii ∧ ii = highestlevel ninlevel ∧ p = q := by
  rw [iterate] at h
  split at h
  · split at h
    · next hp =>
      split at h
      · simp at h
      · next hrun =>
        split at h
        · simp at h
        · next hhigh =>
          split at h
          · simp at h
          · next hlevel =>
            obtain rfl : ⟨p, hp⟩ = q := by simpa using h
            exact ⟨by simpa using hrun, by simpa using hlevel, by simpa using hhigh, rfl⟩
    · simp at h
  · simp at h

theorem Shape.schedulerStep (h : Shape s) {ii : ℤ} {p : ℕ} (hc : s.cpu c = .scan ii p) :
    Shape (schedulerStep c ii p s) := by
  rw [schedulerStep_eq]
  split
  · exact h.moveOn hc (by simp) (by simp)
  · next q hq => exact h.dispatch hc (iterate_dispatch hq).1
  · exact h.release hc

theorem Shape.resume (h : Shape s) {ii : ℤ} {p : ℕ} (hc : s.cpu c = .running q ii p)
    (hl : s.lock = some c) : Shape (resume c q s) := by
  rw [Mlfq.resume]
  split
  · exact (h.setPos_user q).unlock (c := c) (q := q) hc (.inr hl)
  · exact ((h.setChan q none).setPos_user q).unlock (c := c) (q := q) hc (.inr hl)
  · exact ((h.setChan q none).setPos_user q).wait (c := c) (q := q) hc (.inr hl)
  · exact (h.setTrap q .none).unlock (c := c) (q := q) hc (.inr hl)

theorem Shape.setClock (h : Shape s) (n : ℕ) : Shape (s.setClock n) := h.of_eq rfl rfl rfl

theorem Shape.timer (h : Shape s) (q : Slot) : Shape (timer q s) := by
  rw [Mlfq.timer]
  split
  · exact (h.setClock _).setTrap q .boost
  · exact (h.setClock _).setTrap q .yield

theorem Shape.takeSnapshot (h : Shape s) (i : Slot) : Shape (takeSnapshot i s) :=
  h.of_eq rfl rfl rfl

theorem Shape.promote (h : Shape s) {i : Slot} (hi : (s.proc i).state = .runnable)
    (hlevel : (s.proc i).level ≠ 0) : Shape (promote i s) := by
  have hmem := h.level_mem i
  rw [Mlfq.promote, Cumulative.promote]
  refine Shape.addLevel (Shape.setProc (h.addLevel _ _) ?_ ?_ ?_ ?_ ?_) _ _
  · simp only
    omega
  · intro c ii p hc
    exact absurd hc (h.not_running (by simp [hi]) c ii p)
  · intro r hr
    exact absurd hr (h.not_owned (by simp [hi]) r)
  · exact fun _ hnp ↦ hnp
  · exact fun _ ↦ .inl hi

theorem Shape.boostOne (h : Shape s) (i : Slot) : Shape (boostOne s i) := by
  rw [boostOne_eq]
  split
  · exact h
  · next hi =>
    refine Shape.takeSnapshot ?_ i
    split
    · next hstarved => exact h.promote (not_not.mp hi) hstarved.1
    · exact h

/-- What the body of the loop keeps, `check_starve_and_boost` keeps. -/
theorem checkStarveAndBoost_rec {P : Kernel ncpu → Prop} (h : P s)
    (hone : ∀ t i, P t → P (Mlfq.boostOne t i)) : P (checkStarveAndBoost s) := by
  rw [checkStarveAndBoost_eq]
  exact List.foldlRecOn slots _ h fun t ht i _ ↦ hone t i ht

end Sections

/-! ## Every move -/

theorem Shape.step {t : Kernel ncpu} {a : Act ncpu} (h : Shape s) (hstep : step a s = some t) :
    Shape t := by
  cases trans_of_step hstep with
  | acquire _ hl => exact h.acquire hl
  | scan hc => exact h.schedulerStep hc
  | resume hc hl => exact h.resume hc hl
  | timer => exact h.timer _
  | boost => exact (checkStarveAndBoost_rec h fun _ i ht ↦ ht.boostOne i).setTrap _ _
  | yield hq _ hl =>
    obtain ⟨_, _, hc⟩ := cpu_of_current hq
    exact h.yield hc hl
  | sleep hq hl =>
    obtain ⟨_, _, hc⟩ := cpu_of_caller hq
    exact h.sleepAs hc (.inl hl) (by simp) (by simp) _
  | wakeup => exact h.wakeup1 _
  | exit hq hl =>
    obtain ⟨_, _, hc⟩ := cpu_of_caller hq
    exact h.exit hc hl (caller_eq_some hq).2
  | wait hq hl =>
    obtain ⟨_, _, hc⟩ := cpu_of_caller hq
    exact h.wait hc (.inl hl)
  | kill => exact h.kill _
  | fault => exact h.setProc_same rfl rfl rfl
  | allocproc hq => exact h.allocproc (h.caller_running hq)
  | forkFail hq =>
    have hf := (child_eq_some hq).2
    exact h.forkFail hf (h.child_running hq)
  | forkPublish hq =>
    have hf := (child_eq_some hq).2
    exact h.forkPublish hf (h.child_running hq)
  | forkLoad hq => exact h.forkLoad (h.interruptible_running hq) _
  | forkStore | forkTorn => exact h.forkStore _ _
  | fork hq =>
    have hf := (child_eq_some hq).2
    exact (h.forkPublish hf (h.child_running hq)).forkCount _

theorem Shape.boot : Shape (boot ncpu) := by
  have hpos : ∀ q, ((Mlfq.boot ncpu).proc q).context.pos = .forkret := by
    intro q
    obtain ⟨_, _, hp⟩ := boot_proc ncpu q
    rw [hp]
    rfl
  constructor
  · intro q
    obtain ⟨_, _, hp⟩ := boot_proc ncpu q
    rw [hp]
    exact ⟨le_rfl, (by decide : (0 : ℤ) < nlayer)⟩
  · simp [Mlfq.boot]
  · simp [Mlfq.boot]
  · intro q hq
    rw [hpos] at hq
    exact absurd hq id
  · intro q np hq
    cases (hpos q).symm.trans hq
  · intro q q' np hq
    cases (hpos q).symm.trans hq
  · simp [Mlfq.boot]
  · simp [Mlfq.boot]

theorem Shape.of_reachable (h : Reachable s) : Shape s :=
  h.invariant (fun _ h₀ ↦ h₀ ▸ .boot) fun hs hstep _ ↦ hs.step hstep

end CS537.Mlfq
