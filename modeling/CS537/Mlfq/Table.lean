import Mathlib.Algebra.GroupWithZero.Nat
import Mathlib.Data.Fin.Basic
import Mathlib.Data.Fintype.Basic
import Mathlib.Logic.Function.Basic
import CS537.Lib.Int32

/-!
# The process table of the MLFQ kernel

The data of `p2b/xv6/xv6/kernel/proc.c`: the process table, the level counters `ninlevel`, the
snapshot `laststate` of the starvation check, and where each CPU and each process stands in the
kernel code.

Levels and counters are integers, as in the code: that a level is an index of `ninlevel` is a
result about the kernel and not part of the type. An `int` that may grow without bound wraps.
Arrays are functions of their index.

The kernel stack of a process appears as two small program counters: where its system call is, and
how far the timer branch of `trap`, which may have interrupted that call, has come.
-/

open Wrapping

namespace CS537.Mlfq

def nproc : ℕ := 64

def nlayer : ℕ := 4

/-- The slices of the four levels. -/
def mlpqTimeticks (l : ℤ) : ℕ :=
  if l = 0 then 5 else if l = 1 then 5 else if l = 2 then 10 else if l = 3 then 20 else 0

/-- An index of `ptable.proc`; it stands for the address `&ptable.proc[i]` too. -/
abbrev Slot := Fin nproc

/-- The slot of the first process, `initproc`. -/
def initproc : Slot := ⟨0, by decide⟩

inductive ProcState
  | unused | embryo | sleeping | runnable | running | zombie
  deriving DecidableEq, Repr

/-- A sleep channel: the address of a process, of `ticks`, or some other kernel object. -/
inductive Chan
  | proc (p : Slot)
  | ticks
  | other (n : ℕ)
  deriving DecidableEq, Repr

/-- Where a process is in the kernel code, or has left it by calling `sched`. `forkret`: not yet
dispatched. `user`: in user mode, or in a system call with nothing left half done. `sleep`, `wait`:
in the `sleep` of another call, or of `wait`. `copy np`: in `fork`, `allocproc` has returned `np`.
`count np`: in `fork`, `np` has been made RUNNABLE and `ninlevel[0]++` is the next statement.
`store np n`: in that statement, which has loaded `n`. -/
inductive Pos
  | forkret | user | sleep | wait
  | copy (np : Slot)
  | count (np : Slot)
  | store (np : Slot) (n : ℤ)
  deriving DecidableEq, Repr

/-- How far the timer branch of `trap` has come. `boost`: about to call
`check_starve_and_boost`. `yield`: about to call `yield`, or inside it. -/
inductive TrapPos
  | none | boost | yield
  deriving DecidableEq, Repr

/-- `np->state = RUNNABLE` has been executed, `ninlevel[0]++` has not been finished. -/
def Pos.Between : Pos → Prop
  | .count _ | .store _ _ => True
  | _ => False

instance : DecidablePred Pos.Between := fun x ↦ match x with
  | .count _ | .store _ _ => isTrue trivial
  | .forkret | .user | .sleep | .wait | .copy _ => isFalse id

@[simp] theorem between_count (np : Slot) : (Pos.count np).Between := trivial

@[simp] theorem between_store (np : Slot) (n : ℤ) : (Pos.store np n).Between := trivial

@[simp] theorem not_between_copy (np : Slot) : ¬(Pos.copy np).Between := id

@[simp] theorem not_between_user : ¬Pos.user.Between := id

@[simp] theorem not_between_sleep : ¬Pos.sleep.Between := id

@[simp] theorem not_between_wait : ¬Pos.wait.Between := id

@[simp] theorem not_between_forkret : ¬Pos.forkret.Between := id

structure Context where
  pos : Pos
  trap : TrapPos
  deriving DecidableEq, Repr

structure Proc where
  state : ProcState
  pid : ℤ
  parent : Option Slot
  chan : Option Chan
  killed : Bool
  level : ℤ
  timeticks : ℤ → ℤ
  context : Context

/-- Where a CPU is. `idle`: in `scheduler` before `acquire(&ptable.lock)`. `scan ii p`: in the
layer loop, about to test `p < &ptable.proc[NPROC]`. `running q ii p`: switched to the process
`q`; `ii` and `p` are the loop variables its scheduler will go on with after `p++`. -/
inductive Cpu
  | idle
  | scan (ii : ℤ) (p : ℕ)
  | running (q : Slot) (ii : ℤ) (p : ℕ)
  deriving DecidableEq, Repr

/-- The kernel's shared data. `lastLevel` and `lastTicks` are the two arrays of `laststate`. -/
structure Kernel (ncpu : ℕ) where
  proc : Slot → Proc
  ninlevel : ℤ → ℤ
  lastLevel : Slot → ℤ
  lastTicks : Slot → ℤ → ℤ
  nextpid : ℤ
  starveClock : ℕ
  lock : Option (Fin ncpu)
  cpu : Fin ncpu → Cpu

/-! The numerals `0` and `1` name the CPUs of a kernel with one CPU or with two. -/

scoped instance neZeroOne : NeZero 1 := ⟨by decide⟩

scoped instance neZeroTwo : NeZero 2 := ⟨by decide⟩

variable {ncpu : ℕ}

/-- RUNNABLE or RUNNING: what the level counters count. -/
def Proc.Ready (p : Proc) : Prop := p.state = .runnable ∨ p.state = .running

instance (p : Proc) : Decidable p.Ready := inferInstanceAs (Decidable (_ ∨ _))

/-! ## Updates -/

namespace Kernel

variable (s : Kernel ncpu)

def setProc (q : Slot) (p : Proc) : Kernel ncpu :=
  { s with proc := Function.update s.proc q p }

/-- `ninlevel[l] += d`. -/
def addLevel (l d : ℤ) : Kernel ncpu :=
  { s with ninlevel := Function.update s.ninlevel l (s.ninlevel l + d) }

/-- `ninlevel[l] = v`. -/
def setLevel (l v : ℤ) : Kernel ncpu :=
  { s with ninlevel := Function.update s.ninlevel l v }

def setCpu (c : Fin ncpu) (x : Cpu) : Kernel ncpu :=
  { s with cpu := Function.update s.cpu c x }

def setLock (x : Option (Fin ncpu)) : Kernel ncpu := { s with lock := x }

/-- `nextpid++`. -/
def bumpPid : Kernel ncpu := { s with nextpid := toInt32 (s.nextpid + 1) }

/-- `starve_clock = n`. -/
def setClock (n : ℕ) : Kernel ncpu := { s with starveClock := n }

def setPos (q : Slot) (x : Pos) : Kernel ncpu :=
  s.setProc q { s.proc q with context := { (s.proc q).context with pos := x } }

def setTrap (q : Slot) (x : TrapPos) : Kernel ncpu :=
  s.setProc q { s.proc q with context := { (s.proc q).context with trap := x } }

def setChan (q : Slot) (x : Option Chan) : Kernel ncpu :=
  s.setProc q { s.proc q with chan := x }

end Kernel

end CS537.Mlfq
