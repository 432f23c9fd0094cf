import CS537.Lib.Int32
import CS537.Shm.Vm
import Mathlib.Data.Fintype.Basic
import Mathlib.Data.List.FinRange

/-!
# The shared-memory kernel

The process table of `p3/p3b/xv6/kernel/proc.c`, the tables of the shared regions of `vm.c`, and
the system calls that change address spaces: `fork`, `exit`, `wait`, `growproc` (behind `sbrk`) and
`shmgetat`. Each call is one step; `exec` has a module of its own.

`Except` stands for what may go wrong for good: `panic` or a null pointer.
-/

open Function Wrapping

namespace CS537.Shm

/-- `NPROC`. -/
def nproc : ℕ := 64

/-- `SHMEM_REGIONS`. -/
def shmemRegions : ℕ := 8

/-- `SHMEM_MAX_PAGES`. -/
def shmemMaxPages : ℕ := 4

/-- An index of `ptable.proc`, and the address of that entry. -/
abbrev Slot := Fin nproc

abbrev Key := Fin shmemRegions

/-- The slot of the first process, `initproc`. -/
def initproc : Slot := ⟨0, by decide⟩

inductive ProcState
  | unused | embryo | sleeping | runnable | running | zombie
  deriving DecidableEq, Repr

/-- A sleep channel: the address of a process or another kernel object. -/
inductive Chan
  | proc (p : Slot)
  | other (n : ℕ)
  deriving DecidableEq, Repr

/-- An entry of the process table. `waiting`: the process stands in the `sleep` of `wait` and goes
on with the loop of `wait` when it runs again. -/
structure Proc where
  sz : ℕ
  pgdir : PageDir
  kstack : ℕ
  state : ProcState
  pid : ℤ
  parent : Option Slot
  chan : Option Chan
  killed : Bool
  waiting : Bool
  shmemVaddr : Key → ℕ
  shmtop : ℕ

/-- The kernel's data. `shmemPaddr k i` is `shmem_paddr[k * SHMEM_MAX_PAGES + i]`. -/
structure Kernel where
  freelist : Freelist
  proc : Slot → Proc
  nextpid : ℤ
  shmemCount : Key → ℤ
  shmemPages : Key → ℕ
  shmemPaddr : Key → ℕ → ℕ

namespace Kernel

variable (s : Kernel)

def setProc (q : Slot) (p : Proc) : Kernel := { s with proc := update s.proc q p }

def setFreelist (m : Freelist) : Kernel := { s with freelist := m }

/-- `nextpid++`. -/
def bumpPid : Kernel := { s with nextpid := toInt32 (s.nextpid + 1) }

def setCount (k : Key) (n : ℤ) : Kernel := { s with shmemCount := update s.shmemCount k n }

def setPages (k : Key) (n : ℕ) : Kernel := { s with shmemPages := update s.shmemPages k n }

def setPaddr (k : Key) (i f : ℕ) : Kernel :=
  { s with shmemPaddr := update s.shmemPaddr k (update (s.shmemPaddr k) i f) }

end Kernel

namespace Kernel

variable (s : Kernel) {q r : Slot} (p : Proc)

theorem setProc_self : (s.setProc q p).proc q = p := update_self ..

theorem setProc_of_ne (h : r ≠ q) : (s.setProc q p).proc r = s.proc r := update_of_ne h _ _

theorem setProc_eq_self : s.setProc q (s.proc q) = s := by
  rw [setProc, update_eq_self]

end Kernel

/-- The slots in the order of the loops over `ptable.proc`. -/
@[irreducible] def slots : List Slot := List.finRange nproc

theorem mem_slots (q : Slot) : q ∈ slots := by
  rw [slots]
  exact List.mem_finRange q

/-- The keys in the order of the loops over the regions. -/
def keys : List Key := List.finRange shmemRegions

/-! ## `shm_increase_count` and `shm_decrease_count` -/

/-- `shm_increase_count(k)`; the counter is an `int`. -/
def shmIncreaseCount (k : Key) (s : Kernel) : Kernel :=
  s.setCount k (toInt32 (s.shmemCount k + 1))

/-- The loop of `shm_decrease_count` over `n` pages from `i` on. -/
def freeRegion (L : Link) (k : Key) : ℕ → ℕ → Kernel → Except String Kernel
  | 0, _, s => pure s
  | n + 1, i, s => do
    let m ← kfree L (s.shmemPaddr k i) s.freelist
    freeRegion L k n (i + 1) ((s.setFreelist m).setPaddr k i 0)

def shmDecreaseCount (L : Link) (k : Key) (s : Kernel) : Except String Kernel :=
  let s := s.setCount k (toInt32 (s.shmemCount k - 1))
  if s.shmemCount k = 0 then freeRegion L k (s.shmemPages k) 0 s else pure s

/-! ## `shmgetat` -/

/-- One round of the loop of `shmgetat` in the process `q`; `vaddr` has been lowered already. The
result of `mappages` is not looked at. -/
def attachPage (fresh : Bool) (q : Slot) (k : Key) (i vaddr : ℕ) (s : Kernel) :
    Except String Kernel := do
  let s ← if fresh then
      match kalloc s.freelist with
      | none => throw "shmem kalloc failed"
      | some (r, m) => pure ((s.setFreelist m).setPaddr k i r)
    else pure s
  let (m, d, _) ← mappages vaddr pgsize (s.shmemPaddr k i) true true s.freelist (s.proc q).pgdir
  pure ((s.setFreelist m).setProc q { s.proc q with pgdir := d })

/-- The loop of `shmgetat`: `n` rounds from `i` on. -/
def attachPages (fresh : Bool) (q : Slot) (k : Key) :
    ℕ → ℕ → ℕ → Kernel → Except String Kernel
  | 0, _, _, s => pure s
  | n + 1, i, vaddr, s => do
    let s ← attachPage fresh q k i (sub32 vaddr pgsize) s
    attachPages fresh q k n (i + 1) (sub32 vaddr pgsize) s

/-- The end of `shmgetat`, with the number of pages settled. -/
def attach (fresh : Bool) (q : Slot) (k : Key) (num : ℕ) (s : Kernel) :
    Except String (Kernel × ℤ) :=
  let top := (s.proc q).shmtop
  if sub32 top (num * pgsize) < (s.proc q).sz then pure (s, -1)
  else do
    let s ← attachPages fresh q k num 0 top s
    let s := (shmIncreaseCount k s).setPages k num
    let vaddr := sub32 top (num * pgsize)
    pure (s.setProc q { s.proc q with
      shmemVaddr := update (s.proc q).shmemVaddr k vaddr
      shmtop := vaddr }, vaddr)

/-- `sys_shmgetat` with its two arguments, in the process `q`. -/
def shmgetat (q : Slot) (key numPages : BitVec 32) (s : Kernel) : Except String (Kernel × ℤ) :=
  if key.toInt < 0 then pure (s, -1)
  else if h : key.toNat < shmemRegions then
    let k : Key := ⟨key.toNat, h⟩
    if (s.proc q).shmemVaddr k ≠ 0 then pure (s, (s.proc q).shmemVaddr k)
    else if s.shmemCount k = 0 then
      if 0 < numPages.toInt ∧ numPages.toInt ≤ shmemMaxPages then
        attach true q k numPages.toNat s
      else pure (s, -1)
    else attach false q k (s.shmemPages k) s
  else pure (s, -1)

/-! ## `growproc` -/

/-- `growproc(n)` in the process `q`; 0 is the error value of `allocuvm` and of `deallocuvm`. -/
def growproc (L : Link) (q : Slot) (n : BitVec 32) (s : Kernel) : Except String (Kernel × ℤ) :=
  let p := s.proc q
  let newsz := (p.sz + n.toNat) % 2 ^ 32
  if 0 < n.toInt then do
    let g ← allocuvm L p.shmtop p.sz newsz s.freelist p.pgdir
    let s := (s.setFreelist g.freelist).setProc q { p with pgdir := g.pgdir }
    if g.ret = 0 then pure (s, -1)
    else pure (s.setProc q { s.proc q with sz := g.ret }, 0)
  else if n.toInt < 0 then do
    let (m, d, ret) ← deallocuvm L p.sz newsz s.freelist p.pgdir
    let s := (s.setFreelist m).setProc q { p with pgdir := d }
    if ret = 0 then pure (s, -1)
    else pure (s.setProc q { s.proc q with sz := ret }, 0)
  else pure (s, 0)

/-! ## `fork` -/

/-- What `allocproc` writes into the slot it has found, with the stack `r`. -/
def Proc.embryo (p : Proc) (pid : ℤ) (r : ℕ) : Proc :=
  { p with
    state := .embryo
    pid := pid
    kstack := r
    waiting := false
    shmemVaddr := fun _ ↦ 0
    shmtop := usertop }

/-- `allocproc`; the slot stays UNUSED, with a new pid, when there is no memory for the stack. -/
def allocproc (s : Kernel) : Kernel × Option Slot :=
  match slots.find? (fun p ↦ (s.proc p).state = .unused) with
  | none => (s, none)
  | some np =>
    match kalloc s.freelist with
    | none =>
      (s.bumpPid.setProc np
        { s.proc np with state := .unused, pid := s.nextpid, kstack := 0 }, none)
    | some (r, m) =>
      ((s.bumpPid.setFreelist m).setProc np ((s.proc np).embryo s.nextpid r), some np)

/-- One round of the loop of `fork` over the regions. -/
def inheritOne (q np : Slot) (s : Kernel) (k : Key) : Kernel :=
  let v := (s.proc q).shmemVaddr k
  let s := s.setProc np { s.proc np with shmemVaddr := update (s.proc np).shmemVaddr k v }
  if v ≠ 0 then shmIncreaseCount k s else s

/-- The rest of `fork` once `allocproc` has returned `np`. -/
def forkInto (L : Link) (q np : Slot) (s : Kernel) : Except String (Kernel × ℤ) := do
  let s := keys.foldl (inheritOne q np) s
  let p := s.proc q
  let s := s.setProc np { s.proc np with shmtop := p.shmtop }
  match ← copyuvm L p.sz p.shmtop p.sz p.pgdir s.freelist with
  | (m, none) => do
    let m ← kfree L (s.proc np).kstack m
    pure ((s.setFreelist m).setProc np
      { s.proc np with pgdir := .zero 0, kstack := 0, state := .unused }, -1)
  | (m, some d) =>
    pure ((s.setFreelist m).setProc np
      { s.proc np with pgdir := d, sz := p.sz, parent := some q, state := .runnable },
      (s.proc np).pid)

/-- `fork` in the process `q`. -/
def fork (L : Link) (q : Slot) (s : Kernel) : Except String (Kernel × ℤ) :=
  match allocproc s with
  | (s, none) => pure (s, -1)
  | (s, some np) => forkInto L q np s

/-! ## `sleep`, `wakeup`, `kill`, `yield` -/

def wakeOne (chan : Chan) (s : Kernel) (q : Slot) : Kernel :=
  if (s.proc q).state = .sleeping ∧ (s.proc q).chan = some chan then
    s.setProc q { s.proc q with state := .runnable }
  else s

def wakeup1 (chan : Chan) (s : Kernel) : Kernel := slots.foldl (wakeOne chan) s

def sleep (chan : Chan) (q : Slot) (s : Kernel) : Kernel :=
  s.setProc q { s.proc q with chan := some chan, state := .sleeping }

def yield (q : Slot) (s : Kernel) : Kernel := s.setProc q { s.proc q with state := .runnable }

/-- The scheduler picks the process `q`. A process that was asleep clears `chan` as it returns from
`sleep`. -/
def dispatch (q : Slot) (s : Kernel) : Kernel :=
  s.setProc q { s.proc q with state := .running, chan := none }

/-- The first slot with the pid is marked killed and woken if it sleeps. -/
def kill (pid : ℤ) (s : Kernel) : Kernel :=
  match slots.find? (fun q ↦ (s.proc q).pid = pid) with
  | none => s
  | some q =>
    if (s.proc q).state = .sleeping then
      s.setProc q { s.proc q with killed := true, state := .runnable }
    else s.setProc q { s.proc q with killed := true }

/-! ## `exit` and `wait` -/

def reparentOne (q : Slot) (s : Kernel) (p : Slot) : Kernel :=
  if (s.proc p).parent = some q then
    let s := s.setProc p { s.proc p with parent := some initproc }
    if (s.proc p).state = .zombie then wakeup1 (.proc initproc) s else s
  else s

/-- `wakeup1(proc->parent)`. -/
def wakeParent (q : Slot) (s : Kernel) : Kernel :=
  match (s.proc q).parent with
  | some pp => wakeup1 (.proc pp) s
  | none => s

/-- `exit` in the process `q`, after its files are closed. -/
def exit (q : Slot) (s : Kernel) : Except String Kernel :=
  if q = initproc then throw "init exiting"
  else
    let s := slots.foldl (reparentOne q) (wakeParent q s)
    pure (s.setProc q { s.proc q with state := .zombie })

/-- One round of the last loop of `wait`. -/
def detachOne (L : Link) (p : Slot) (s : Kernel) (k : Key) : Except String Kernel :=
  if (s.proc p).shmemVaddr k ≠ 0 then shmDecreaseCount L k s else pure s

/-- The process `q` reaps its child `p`; `freevm` looks at the size of `q`. -/
def reap (L : Link) (q p : Slot) (s : Kernel) : Except String Kernel := do
  let m ← kfree L (s.proc p).kstack s.freelist
  let m ← freevm L (s.proc q).sz m (s.proc p).pgdir
  let s := (s.setFreelist m).setProc p { s.proc p with
    kstack := 0
    state := .unused
    pid := 0
    parent := none
    killed := false }
  keys.foldlM (detachOne L p) s

/-- The child that `wait` finds. -/
def zombieChild (q : Slot) (s : Kernel) : Option Slot :=
  slots.find? fun p ↦ (s.proc p).parent = some q ∧ (s.proc p).state = .zombie

theorem zombieChild_state {q z : Slot} {s : Kernel} (h : zombieChild q s = some z) :
    (s.proc z).state = .zombie := by
  have hchild := List.find?_some h
  simp only [decide_eq_true_eq] at hchild
  exact hchild.2

/-- `wait` in the process `q`: it reaps a child, returns -1, or goes to sleep in its loop. -/
def wait (L : Link) (q : Slot) (s : Kernel) : Except String (Kernel × Option ℤ) :=
  match zombieChild q s with
  | some p => do
    let pid := (s.proc p).pid
    let s ← reap L q p s
    pure (s.setProc q { s.proc q with waiting := false }, some pid)
  | none =>
    if (∃ p, (s.proc p).parent = some q) ∧ (s.proc q).killed = false then
      pure (sleep (.proc q) q (s.setProc q { s.proc q with waiting := true }), none)
    else pure (s.setProc q { s.proc q with waiting := false }, some (-1))

theorem wait_of_reap {L : Link} {q z : Slot} {s t : Kernel} (hz : zombieChild q s = some z)
    (h : reap L q z s = .ok t) : wait L q s
      = .ok (t.setProc q { t.proc q with waiting := false }, some (s.proc z).pid) := by
  rw [wait, hz]
  simp only
  rw [h]
  rfl

end CS537.Shm
