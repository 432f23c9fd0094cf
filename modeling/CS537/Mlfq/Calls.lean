import CS537.Mlfq.Scheduler

/-!
# The critical sections of the MLFQ kernel

Each function here is what one section under `ptable.lock` does, from `acquire` to `release` or to
`sched`; the pieces of `fork` that run without the lock are functions of their own.
-/

namespace CS537.Mlfq

variable {ncpu : ℕ}

/-- The slots in the order of the loops `for(p = ptable.proc; p < &ptable.proc[NPROC]; p++)`. -/
@[irreducible] def slots : List Slot := List.finRange nproc

theorem nodup_slots : slots.Nodup := by
  rw [slots]
  exact List.nodup_finRange nproc

theorem mem_slots (q : Slot) : q ∈ slots := by
  rw [slots]
  exact List.mem_finRange q

/-! ## `wakeup1`, `sleep`, `yield`, `kill` -/

def wakeOne (chan : Chan) (s : Kernel ncpu) (q : Slot) : Kernel ncpu :=
  let p := s.proc q
  if p.state = .sleeping ∧ p.chan = some chan then
    (s.setProc q { p with state := .runnable }).addLevel p.level 1
  else s

def wakeup1 (chan : Chan) (s : Kernel ncpu) : Kernel ncpu := slots.foldl (wakeOne chan) s

/-- The common part of `sleep` and of the `sleep` inside `wait`: they differ in what the process
returns into. -/
def sleepAs (pos : Pos) (chan : Chan) (c : Fin ncpu) (q : Slot) (s : Kernel ncpu) : Kernel ncpu :=
  let p := s.proc q
  let p' := { p with
    chan := some chan
    state := .sleeping
    context := { p.context with pos := pos } }
  sched c ((s.setProc q p').addLevel p.level (-1))

def sleep (chan : Chan) : Fin ncpu → Slot → Kernel ncpu → Kernel ncpu := sleepAs .sleep chan

def yield (c : Fin ncpu) (q : Slot) (s : Kernel ncpu) : Kernel ncpu :=
  sched c (s.setProc q { s.proc q with state := .runnable })

/-- The first slot with the pid, whatever its state, is marked killed and woken if it sleeps. -/
def kill (pid : ℤ) (s : Kernel ncpu) : Kernel ncpu :=
  match slots.find? (fun q ↦ (s.proc q).pid = pid) with
  | none => s
  | some q =>
    let p := s.proc q
    if p.state = .sleeping then
      (s.setProc q { p with killed := true, state := .runnable }).addLevel p.level 1
    else s.setProc q { p with killed := true }

/-! ## `fork` -/

/-- What `allocproc` writes into the slot it has found. -/
def Proc.embryo (p : Proc) (pid : ℤ) : Proc :=
  { p with
    state := .embryo
    pid := pid
    level := 0
    timeticks := fun l ↦ if 0 ≤ l ∧ l < nlayer then 0 else p.timeticks l
    context := { pos := .forkret, trap := .none } }

/-- The part of `allocproc` under the lock, on behalf of `fork` in the process `q`. With no UNUSED
slot `fork` returns -1 and nothing changes. -/
def allocproc (q : Slot) (s : Kernel ncpu) : Kernel ncpu :=
  match slots.find? (fun p ↦ (s.proc p).state = .unused) with
  | none => s
  | some np =>
    ((s.setProc np ((s.proc np).embryo s.nextpid)).bumpPid).setPos q (.copy np)

/-- `fork` gives up because `kalloc` failed, in `allocproc` or in `copyuvm`: `np->state = UNUSED`,
without the lock. -/
def forkFail (q np : Slot) (s : Kernel ncpu) : Kernel ncpu :=
  (s.setProc np { s.proc np with state := .unused }).setPos q .user

/-- `np->parent = proc` up to `np->state = RUNNABLE`, without the lock. -/
def forkPublish (q np : Slot) (s : Kernel ncpu) : Kernel ncpu :=
  (s.setProc np { s.proc np with parent := some q, state := .runnable }).setPos q (.count np)

/-- `ninlevel[0]++`, without the lock, and nothing in between. -/
def forkCount (q : Slot) (s : Kernel ncpu) : Kernel ncpu :=
  (s.addLevel 0 1).setPos q .user

/-- The load of `ninlevel[0]++`. -/
def forkLoad (q np : Slot) (s : Kernel ncpu) : Kernel ncpu :=
  s.setPos q (.store np (s.ninlevel 0))

/-- The store of `ninlevel[0]++`, whatever the counter is by now. -/
def forkStore (q : Slot) (v : ℤ) (s : Kernel ncpu) : Kernel ncpu :=
  (s.setLevel 0 v).setPos q .user

/-! ## `exit` and `wait` -/

def reparentOne (q : Slot) (s : Kernel ncpu) (p : Slot) : Kernel ncpu :=
  if (s.proc p).parent = some q then
    let s := s.setProc p { s.proc p with parent := some initproc }
    if (s.proc p).state = .zombie then wakeup1 (.proc initproc) s else s
  else s

/-- `exit` up to the loop over the children: the parent is woken while `q` is still RUNNING. -/
def wakeParent (q : Slot) (s : Kernel ncpu) : Kernel ncpu :=
  match (s.proc q).parent with
  | some pp => wakeup1 (.proc pp) s
  | none => s

def abandonChildren (q : Slot) (s : Kernel ncpu) : Kernel ncpu := slots.foldl (reparentOne q) s

/-- The end of `exit`. -/
def becomeZombie (c : Fin ncpu) (q : Slot) (s : Kernel ncpu) : Kernel ncpu :=
  let p := s.proc q
  sched c ((s.setProc q { p with state := .zombie }).addLevel p.level (-1))

/-- `exit` after the files are closed. -/
def exit (c : Fin ncpu) (q : Slot) (s : Kernel ncpu) : Kernel ncpu :=
  becomeZombie c q (abandonChildren q (wakeParent q s))

/-- What one round of the loop in `wait` comes to. -/
inductive WaitResult
  | reap (p : Slot) (pid : ℤ)
  | fail
  | block
  deriving DecidableEq

/-- The scan for zombie children, and the tests after it. -/
def waitScan (q : Slot) (s : Kernel ncpu) : WaitResult :=
  match slots.find? (fun p ↦ (s.proc p).parent = some q ∧ (s.proc p).state = .zombie) with
  | some p => .reap p (s.proc p).pid
  | none =>
    if (∀ p ∈ slots, (s.proc p).parent ≠ some q) ∨ (s.proc q).killed then .fail else .block

/-- One round of the loop in `wait`, entered with `ptable.lock` held. -/
def wait (c : Fin ncpu) (q : Slot) (s : Kernel ncpu) : Kernel ncpu :=
  match waitScan q s with
  | .reap p _ =>
    (s.setProc p
      { s.proc p with state := .unused, pid := 0, parent := none, killed := false }).setLock
      none
  | .fail => s.setLock none
  | .block => sleepAs .wait (.proc q) c q s

/-! ## `check_starve_and_boost` -/

/-- The level is not 0, and level and ticks are what they were when the snapshot of the slot was
last taken. -/
def Starved (i : Slot) (s : Kernel ncpu) : Prop :=
  (s.proc i).level ≠ 0 ∧ (s.proc i).level = s.lastLevel i ∧
    (s.proc i).timeticks (s.proc i).level = s.lastTicks i (s.proc i).level

instance (i : Slot) (s : Kernel ncpu) : Decidable (Starved i s) :=
  inferInstanceAs (Decidable (_ ∧ _))

def takeSnapshot (i : Slot) (s : Kernel ncpu) : Kernel ncpu :=
  let p := s.proc i
  { s with
    lastLevel := Function.update s.lastLevel i p.level
    lastTicks := Function.update s.lastTicks i
      (Function.update (s.lastTicks i) p.level (p.timeticks p.level)) }

namespace Cumulative

variable (slice : ℤ → ℕ)

/-- One level up, with the ticks of a full slice of the new level. -/
def promote (i : Slot) (s : Kernel ncpu) : Kernel ncpu :=
  let p := s.proc i
  ((s.addLevel p.level (-1)).setProc i { p with
    level := p.level - 1
    timeticks := Function.update p.timeticks (p.level - 1) (slice (p.level - 1)) }).addLevel
      (p.level - 1) 1

/-- The body of the loop for the slot `i`. -/
def boostOne (s : Kernel ncpu) (i : Slot) : Kernel ncpu :=
  if (s.proc i).state ≠ .runnable then s
  else takeSnapshot i (if Starved i s then promote slice i s else s)

def checkStarveAndBoost (s : Kernel ncpu) : Kernel ncpu := slots.foldl (boostOne slice) s

end Cumulative

def promote (i : Slot) (s : Kernel ncpu) : Kernel ncpu := Cumulative.promote mlpqTimeticks i s

def boostOne (s : Kernel ncpu) (i : Slot) : Kernel ncpu := Cumulative.boostOne mlpqTimeticks s i

def checkStarveAndBoost (s : Kernel ncpu) : Kernel ncpu :=
  Cumulative.checkStarveAndBoost mlpqTimeticks s

theorem boostOne_eq (s : Kernel ncpu) (i : Slot) : boostOne s i =
    if (s.proc i).state ≠ .runnable then s
    else takeSnapshot i (if Starved i s then promote i s else s) := rfl

theorem checkStarveAndBoost_eq (s : Kernel ncpu) :
    checkStarveAndBoost s = slots.foldl boostOne s := rfl

end CS537.Mlfq
