import CS537.Lib.Transition
import CS537.Mlfq.Calls

/-!
# The MLFQ kernel as a transition system

Every CPU runs either its scheduler or a process. A move is one critical section under
`ptable.lock`, one iteration of a scheduler's layer loop, or one of the statements that change the
process table without the lock. System calls run interruptible: the timer may preempt a process
between any two of its moves, in user mode and inside `fork` alike.
-/

namespace CS537.Mlfq

open Transition

variable {ncpu : ℕ}

/-- The moves of CPU `c`, or of the process it runs. -/
inductive Act (ncpu : ℕ)
  /-- `scheduler` acquires `ptable.lock` and enters the layer loop -/
  | acquire (c : Fin ncpu)
  /-- one iteration of the layer loop -/
  | scan (c : Fin ncpu)
  /-- the dispatched process goes on from where it called `sched`, up to `release` -/
  | resume (c : Fin ncpu)
  /-- the timer interrupt in `trap`, up to the decision to call `check_starve_and_boost` -/
  | timer (c : Fin ncpu)
  | boost (c : Fin ncpu)
  | yield (c : Fin ncpu)
  | sleep (c : Fin ncpu) (chan : Chan)
  | wakeup (c : Fin ncpu) (chan : Chan)
  | exit (c : Fin ncpu)
  | wait (c : Fin ncpu)
  | kill (c : Fin ncpu) (pid : ℤ)
  /-- an unexpected trap in user mode: `proc->killed = 1` -/
  | fault (c : Fin ncpu)
  | allocproc (c : Fin ncpu)
  | forkFail (c : Fin ncpu)
  | forkPublish (c : Fin ncpu)
  | forkLoad (c : Fin ncpu)
  | forkStore (c : Fin ncpu)
  /-- a section of another CPU updates `ninlevel[0]` while the increment of `fork` is being stored,
  and the two leave some value `v` in it -/
  | forkTorn (c : Fin ncpu) (v : ℤ)
  /-- `forkPublish` and the increment with nothing in between -/
  | fork (c : Fin ncpu)
  deriving DecidableEq

namespace Kernel

variable (s : Kernel ncpu)

/-- The process CPU `c` executes outside the critical sections of `ptable.lock`. -/
def current (c : Fin ncpu) : Option Slot :=
  match s.cpu c with
  | .running q _ _ => if s.lock = some c then none else some q
  | _ => none

/-- The current process, with interrupts enabled: not inside the timer branch of `trap`. -/
def interruptible (c : Fin ncpu) : Option Slot :=
  (s.current c).filter fun q ↦ (s.proc q).context.trap = .none

/-- The current process, with nothing left half done. -/
def caller (c : Fin ncpu) : Option Slot :=
  (s.interruptible c).filter fun q ↦ (s.proc q).context.pos = .user

/-- The new process of the `fork` the current process is executing. -/
def child (c : Fin ncpu) : Option (Slot × Slot) :=
  (s.interruptible c).bind fun q ↦ match (s.proc q).context.pos with
    | .copy np => some (q, np)
    | _ => none

end Kernel

/-- What follows `sched` in `sleep`, in the `sleep` of `wait`, which comes back to the loop of
`wait` with the lock still held, and in `yield`; a new process starts in `forkret`. -/
def resume (c : Fin ncpu) (q : Slot) (s : Kernel ncpu) : Kernel ncpu :=
  match (s.proc q).context.pos with
  | .forkret => (s.setPos q .user).setLock none
  | .sleep => ((s.setChan q none).setPos q .user).setLock none
  | .wait => wait c q ((s.setChan q none).setPos q .user)
  | _ => (s.setTrap q .none).setLock none

/-- The timer branch of `trap` up to the test `++starve_clock == 100`. -/
def timer (q : Slot) (s : Kernel ncpu) : Kernel ncpu :=
  if s.starveClock + 1 = 100 then (s.setClock 0).setTrap q .boost
  else (s.setClock (s.starveClock + 1)).setTrap q .yield

/-- The transitions, for any table of slices. A section under `ptable.lock` starts when the lock is
free. -/
def Cumulative.step (slice : ℤ → ℕ) (a : Act ncpu) (s : Kernel ncpu) : Option (Kernel ncpu) :=
  match a with
  | .acquire c =>
    if s.cpu c = .idle ∧ s.lock = none then some ((s.setCpu c (.scan 0 0)).setLock (some c))
    else none
  | .scan c =>
    match s.cpu c with
    | .scan ii p => some (schedulerStep slice c ii p s)
    | _ => none
  | .resume c =>
    match s.cpu c with
    | .running q _ _ => if s.lock = some c then some (resume c q s) else none
    | _ => none
  | .timer c => (s.interruptible c).map fun q ↦ timer q s
  | .boost c => do
    let q ← s.current c
    if (s.proc q).context.trap = .boost ∧ s.lock = none then
      some ((checkStarveAndBoost slice s).setTrap q .yield)
    else none
  | .yield c => do
    let q ← s.current c
    if (s.proc q).context.trap = .yield ∧ s.lock = none then some (yield c q s) else none
  | .sleep c chan => do
    let q ← s.caller c
    if s.lock = none then some (sleep chan c q s) else none
  | .wakeup c chan =>
    -- by the current process or by an interrupt handler, also on an idle CPU
    if (s.cpu c = .idle ∨ (s.interruptible c).isSome) ∧ s.lock = none then some (wakeup1 chan s)
    else none
  | .exit c => do
    let q ← s.caller c
    -- `panic("init exiting")`
    if q ≠ initproc ∧ s.lock = none then some (exit c q s) else none
  | .wait c => do
    let q ← s.caller c
    if s.lock = none then some (wait c q s) else none
  | .kill c pid => do
    let _ ← s.caller c
    if s.lock = none then some (kill pid s) else none
  | .fault c => (s.caller c).map fun q ↦ s.setProc q { s.proc q with killed := true }
  | .allocproc c => do
    let q ← s.caller c
    if s.lock = none then some (allocproc q s) else none
  | .forkFail c => (s.child c).map fun (q, np) ↦ forkFail q np s
  | .forkPublish c => (s.child c).map fun (q, np) ↦ forkPublish q np s
  | .forkLoad c => do
    let q ← s.interruptible c
    match (s.proc q).context.pos with
    | .count np => some (forkLoad q np s)
    | _ => none
  | .forkStore c => do
    let q ← s.interruptible c
    match (s.proc q).context.pos with
    | .store _ n => some (forkStore q (n + 1) s)
    | _ => none
  | .forkTorn c v => do
    let q ← s.interruptible c
    match (s.proc q).context.pos with
    | .store _ _ => if ∃ c', c' ≠ c then some (forkStore q v s) else none
    | _ => none
  | .fork c => (s.child c).map fun (q, np) ↦ forkCount q (forkPublish q np s)

/-- The kernel with its own slices. -/
def step (a : Act ncpu) (s : Kernel ncpu) : Option (Kernel ncpu) :=
  Cumulative.step mlpqTimeticks a s

/-! ## What a transition can do -/

section Inversion

variable {s : Kernel ncpu} {c : Fin ncpu} {q np : Slot}

theorem cpu_of_current (h : s.current c = some q) : ∃ ii p, s.cpu c = .running q ii p := by
  rw [Kernel.current] at h
  split at h
  · next r ii p hc =>
    split at h
    · simp at h
    · obtain rfl : r = q := by simpa using h
      exact ⟨ii, p, hc⟩
  · simp at h

theorem interruptible_eq_some (h : s.interruptible c = some q) :
    s.current c = some q ∧ (s.proc q).context.trap = .none := by
  rw [Kernel.interruptible, Option.filter_eq_some_iff] at h
  simpa using h

theorem caller_eq_some (h : s.caller c = some q) :
    s.interruptible c = some q ∧ (s.proc q).context.pos = .user := by
  rw [Kernel.caller, Option.filter_eq_some_iff] at h
  simpa using h

theorem child_eq_some (h : s.child c = some (q, np)) :
    s.interruptible c = some q ∧ (s.proc q).context.pos = .copy np := by
  rw [Kernel.child, Option.bind_eq_some_iff] at h
  obtain ⟨r, hr, hrnp⟩ := h
  split at hrnp
  · next hf =>
    obtain ⟨rfl, rfl⟩ : r = q ∧ _ := by simpa using hrnp
    exact ⟨hr, hf⟩
  · simp at hrnp

theorem cpu_of_caller (h : s.caller c = some q) : ∃ ii p, s.cpu c = .running q ii p :=
  cpu_of_current (interruptible_eq_some (caller_eq_some h).1).1

end Inversion

/-- The transitions with their guards, one constructor per move. -/
inductive Trans (s : Kernel ncpu) : Act ncpu → Kernel ncpu → Prop
  | acquire {c : Fin ncpu} (hc : s.cpu c = .idle) (hl : s.lock = none) :
    Trans s (.acquire c) ((s.setCpu c (.scan 0 0)).setLock (some c))
  | scan {c : Fin ncpu} {ii : ℤ} {p : ℕ} (hc : s.cpu c = .scan ii p) :
    Trans s (.scan c) (schedulerStep c ii p s)
  | resume {c : Fin ncpu} {q : Slot} {ii : ℤ} {p : ℕ} (hc : s.cpu c = .running q ii p)
    (hl : s.lock = some c) : Trans s (.resume c) (resume c q s)
  | timer {c : Fin ncpu} {q : Slot} (hq : s.interruptible c = some q) :
    Trans s (.timer c) (timer q s)
  | boost {c : Fin ncpu} {q : Slot} (hq : s.current c = some q)
    (ht : (s.proc q).context.trap = .boost) (hl : s.lock = none) :
    Trans s (.boost c) ((checkStarveAndBoost s).setTrap q .yield)
  | yield {c : Fin ncpu} {q : Slot} (hq : s.current c = some q)
    (ht : (s.proc q).context.trap = .yield) (hl : s.lock = none) :
    Trans s (.yield c) (yield c q s)
  | sleep {c : Fin ncpu} {q : Slot} {chan : Chan} (hq : s.caller c = some q)
    (hl : s.lock = none) : Trans s (.sleep c chan) (sleep chan c q s)
  | wakeup {c : Fin ncpu} {chan : Chan} (hl : s.lock = none) :
    Trans s (.wakeup c chan) (wakeup1 chan s)
  | exit {c : Fin ncpu} {q : Slot} (hq : s.caller c = some q) (hl : s.lock = none) :
    Trans s (.exit c) (exit c q s)
  | wait {c : Fin ncpu} {q : Slot} (hq : s.caller c = some q) (hl : s.lock = none) :
    Trans s (.wait c) (wait c q s)
  | kill {c : Fin ncpu} {q : Slot} {pid : ℤ} (hq : s.caller c = some q) (hl : s.lock = none) :
    Trans s (.kill c pid) (kill pid s)
  | fault {c : Fin ncpu} {q : Slot} (hq : s.caller c = some q) :
    Trans s (.fault c) (s.setProc q { s.proc q with killed := true })
  | allocproc {c : Fin ncpu} {q : Slot} (hq : s.caller c = some q) (hl : s.lock = none) :
    Trans s (.allocproc c) (allocproc q s)
  | forkFail {c : Fin ncpu} {q np : Slot} (hq : s.child c = some (q, np)) :
    Trans s (.forkFail c) (forkFail q np s)
  | forkPublish {c : Fin ncpu} {q np : Slot} (hq : s.child c = some (q, np)) :
    Trans s (.forkPublish c) (forkPublish q np s)
  | forkLoad {c : Fin ncpu} {q np : Slot} (hq : s.interruptible c = some q)
    (hf : (s.proc q).context.pos = .count np) : Trans s (.forkLoad c) (forkLoad q np s)
  | forkStore {c : Fin ncpu} {q np : Slot} {n : ℤ} (hq : s.interruptible c = some q)
    (hf : (s.proc q).context.pos = .store np n) : Trans s (.forkStore c) (forkStore q (n + 1) s)
  | forkTorn {c : Fin ncpu} {q np : Slot} {n v : ℤ} (hq : s.interruptible c = some q)
    (hf : (s.proc q).context.pos = .store np n) : Trans s (.forkTorn c v) (forkStore q v s)
  | fork {c : Fin ncpu} {q np : Slot} (hq : s.child c = some (q, np)) :
    Trans s (.fork c) (forkCount q (forkPublish q np s))

theorem trans_of_step {s t : Kernel ncpu} {a : Act ncpu} (h : step a s = some t) : Trans s a t := by
  cases a with
  | acquire c =>
    obtain ⟨⟨hc, hl⟩, hs⟩ := Option.ite_none_right_eq_some.mp h
    obtain rfl := Option.some.inj hs
    exact .acquire hc hl
  | scan c =>
    rw [step, Cumulative.step] at h
    split at h
    · next hc =>
      obtain rfl := Option.some.inj h
      exact .scan hc
    · simp at h
  | resume c =>
    rw [step, Cumulative.step] at h
    split at h
    · next hc =>
      obtain ⟨hl, ht⟩ := Option.ite_none_right_eq_some.mp h
      obtain rfl := Option.some.inj ht
      exact .resume hc hl
    · simp at h
  | timer c =>
    obtain ⟨q, hq, rfl⟩ := Option.map_eq_some_iff.mp h
    exact .timer hq
  | boost c =>
    obtain ⟨q, hq, h⟩ := Option.bind_eq_some_iff.mp h
    obtain ⟨⟨ht, hl⟩, hs⟩ := Option.ite_none_right_eq_some.mp h
    obtain rfl := Option.some.inj hs
    exact .boost hq ht hl
  | yield c =>
    obtain ⟨q, hq, h⟩ := Option.bind_eq_some_iff.mp h
    obtain ⟨⟨ht, hl⟩, hs⟩ := Option.ite_none_right_eq_some.mp h
    obtain rfl := Option.some.inj hs
    exact .yield hq ht hl
  | sleep c chan =>
    obtain ⟨q, hq, h⟩ := Option.bind_eq_some_iff.mp h
    obtain ⟨hl, hs⟩ := Option.ite_none_right_eq_some.mp h
    obtain rfl := Option.some.inj hs
    exact .sleep hq hl
  | wakeup c chan =>
    obtain ⟨⟨-, hl⟩, hs⟩ := Option.ite_none_right_eq_some.mp h
    obtain rfl := Option.some.inj hs
    exact .wakeup hl
  | exit c =>
    obtain ⟨q, hq, h⟩ := Option.bind_eq_some_iff.mp h
    obtain ⟨⟨-, hl⟩, hs⟩ := Option.ite_none_right_eq_some.mp h
    obtain rfl := Option.some.inj hs
    exact .exit hq hl
  | wait c =>
    obtain ⟨q, hq, h⟩ := Option.bind_eq_some_iff.mp h
    obtain ⟨hl, hs⟩ := Option.ite_none_right_eq_some.mp h
    obtain rfl := Option.some.inj hs
    exact .wait hq hl
  | kill c pid =>
    obtain ⟨q, hq, h⟩ := Option.bind_eq_some_iff.mp h
    obtain ⟨hl, hs⟩ := Option.ite_none_right_eq_some.mp h
    obtain rfl := Option.some.inj hs
    exact .kill hq hl
  | fault c =>
    obtain ⟨q, hq, rfl⟩ := Option.map_eq_some_iff.mp h
    exact .fault hq
  | allocproc c =>
    obtain ⟨q, hq, h⟩ := Option.bind_eq_some_iff.mp h
    obtain ⟨hl, hs⟩ := Option.ite_none_right_eq_some.mp h
    obtain rfl := Option.some.inj hs
    exact .allocproc hq hl
  | forkFail c =>
    obtain ⟨⟨q, np⟩, hq, rfl⟩ := Option.map_eq_some_iff.mp h
    exact .forkFail hq
  | forkPublish c =>
    obtain ⟨⟨q, np⟩, hq, rfl⟩ := Option.map_eq_some_iff.mp h
    exact .forkPublish hq
  | forkLoad c =>
    obtain ⟨q, hq, h⟩ := Option.bind_eq_some_iff.mp h
    split at h
    · next np hf =>
      obtain rfl := Option.some.inj h
      exact .forkLoad hq hf
    · simp at h
  | forkStore c =>
    obtain ⟨q, hq, h⟩ := Option.bind_eq_some_iff.mp h
    split at h
    · next np n hf =>
      obtain rfl := Option.some.inj h
      exact .forkStore hq hf
    · simp at h
  | forkTorn c v =>
    obtain ⟨q, hq, h⟩ := Option.bind_eq_some_iff.mp h
    split at h
    · next np n hf =>
      obtain ⟨-, hs⟩ := Option.ite_none_right_eq_some.mp h
      obtain rfl := Option.some.inj hs
      exact .forkTorn hq hf
    · simp at h
  | fork c =>
    obtain ⟨⟨q, np⟩, hq, rfl⟩ := Option.map_eq_some_iff.mp h
    exact .fork hq

/-! ## Boot -/

def bootProc : Proc where
  state := .unused
  pid := 0
  parent := none
  chan := none
  killed := false
  level := 0
  timeticks := fun _ ↦ 0
  context := { pos := .forkret, trap := .none }

/-- The state after `userinit`: the first process is RUNNABLE at level 0 and counted. -/
def boot (ncpu : ℕ) : Kernel ncpu where
  proc := Function.update (fun _ ↦ bootProc) initproc { bootProc with state := .runnable, pid := 1 }
  ninlevel := Function.update (fun _ ↦ 0) 0 1
  lastLevel := fun _ ↦ 0
  lastTicks := fun _ _ ↦ 0
  nextpid := 2
  starveClock := 0
  lock := none
  cpu := fun _ ↦ .idle

/-- Only the state and the pid of the first process differ from those of the others. -/
theorem boot_proc (ncpu : ℕ) (q : Slot) :
    ∃ state pid, (boot ncpu).proc q = { bootProc with state := state, pid := pid } := by
  rcases eq_or_ne q initproc with rfl | hq
  · exact ⟨.runnable, 1, by simp [boot]⟩
  · exact ⟨.unused, 0, by simp [boot, bootProc, hq]⟩

/-- The states of all runs from boot. -/
def Reachable (s : Kernel ncpu) : Prop := Transition.Reachable step (· = boot ncpu) s

/-- A move that is not a part of `fork`'s publication of a child. -/
def Act.Whole (a : Act ncpu) : Prop :=
  ∀ c, a ≠ .forkPublish c ∧ a ≠ .forkLoad c ∧ a ≠ .forkStore c ∧ ∀ v, a ≠ .forkTorn c v

/-- The states of the runs in which `np->state = RUNNABLE` and `ninlevel[0]++` are one step. -/
def ReachableWhole (s : Kernel ncpu) : Prop :=
  ReachableBy step (· = boot ncpu) (fun m ↦ m.act.Whole) s

theorem reachableWhole_boot : ReachableWhole (boot ncpu) := .refl rfl

theorem reachableWhole_of_replay {as : List (Act ncpu)} {s : Kernel ncpu}
    (h : replay step as (boot ncpu) = some s) (hwhole : ∀ a ∈ as, a.Whole) : ReachableWhole s :=
  ReachableBy.replay reachableWhole_boot h hwhole

theorem reachable_of_replay {as : List (Act ncpu)} {s : Kernel ncpu}
    (h : replay step as (boot ncpu) = some s) : Reachable s :=
  ReachableBy.replay (A := fun _ ↦ True) (.refl rfl) h fun _ _ ↦ trivial

theorem ReachableWhole.reachable {s : Kernel ncpu} (h : ReachableWhole s) : Reachable s :=
  ReachableBy.reachable h

end CS537.Mlfq
