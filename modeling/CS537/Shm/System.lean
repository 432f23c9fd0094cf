import CS537.Lib.Transition
import CS537.Shm.Stray

/-!
# Runs of the shared-memory kernel

A step is a whole system call of a RUNNING process, or an event that changes only who runs: the
scheduler picks a process, a process gives up the CPU or goes to sleep in a call that is not
modelled, processes are woken or killed. Any number of processes may be RUNNING, one on each
processor. A call that panics has no successor.

`step` follows the code as far as the model goes. `coreStep` is the same machine for calls that keep
within bounds: it leaves out what an `exec` stores outside its image, and has no successor when a
counter of the shared regions wraps.
-/

namespace CS537.Shm

open Transition

inductive Act
  | dispatch (q : Slot)
  | yield (q : Slot)
  | sleep (q : Slot) (chan : ℕ)
  | wakeup (chan : ℕ)
  | kill (q : Slot) (pid : ℤ)
  | fork (q : Slot)
  | exec (q : Slot) (file : Option File) (argv : List Arg)
  | exit (q : Slot)
  | wait (q : Slot)
  | sbrk (q : Slot) (n : BitVec 32)
  | shmgetat (q : Slot) (key numPages : BitVec 32)

/-- The process `q` runs and does not stand in the loop of `wait`. -/
def Kernel.Ready (s : Kernel) (q : Slot) : Prop :=
  (s.proc q).state = .running ∧ (s.proc q).waiting = false

instance (s : Kernel) (q : Slot) : Decidable (s.Ready q) :=
  inferInstanceAs (Decidable (_ ∧ _))

def step (L : Link) (a : Act) (s : Kernel) : Option Kernel :=
  match a with
  | .dispatch q => if (s.proc q).state = .runnable then some (dispatch q s) else none
  | .yield q => if s.Ready q then some (yield q s) else none
  | .sleep q chan => if s.Ready q then some (sleep (.other chan) q s) else none
  | .wakeup chan => some (wakeup1 (.other chan) s)
  | .kill q pid => if s.Ready q then some (kill pid s) else none
  | .fork q => if s.Ready q then ((fork L q s).map Prod.fst).toOption else none
  | .exec q file argv => if s.Ready q then execStray L q file argv s else none
  | .exit q => if s.Ready q then (exit q s).toOption else none
  | .wait q =>
    if (s.proc q).state = .running then ((wait L q s).map Prod.fst).toOption else none
  | .sbrk q n => if s.Ready q then ((growproc L q n s).map Prod.fst).toOption else none
  | .shmgetat q key num =>
    if s.Ready q then ((shmgetat q key num s).map Prod.fst).toOption else none

/-- No counter is less than it was. -/
def Kernel.Rises (s t : Kernel) : Prop := ∀ k, s.shmemCount k ≤ t.shmemCount k

instance (s t : Kernel) : Decidable (s.Rises t) :=
  inferInstanceAs (Decidable (∀ k, s.shmemCount k ≤ t.shmemCount k))

def coreStep (L : Link) (a : Act) (s : Kernel) : Option Kernel :=
  match a with
  | .exec q file argv =>
    if s.Ready q then ((exec L q file argv s).map Prod.fst).toOption else none
  | .fork q => (step L (.fork q) s).filter fun t ↦ s.Rises t
  | .shmgetat q key num => (step L (.shmgetat q key num) s).filter fun t ↦ s.Rises t
  | a => step L a s

/-! ## Boot -/

/-- The process table and the region tables before `userinit`: everything is zero. -/
def blank (m : Freelist) : Kernel where
  freelist := m
  proc := fun _ ↦
    { sz := 0
      pgdir := .zero 0
      kstack := 0
      state := .unused
      pid := 0
      parent := none
      chan := none
      killed := false
      waiting := false
      shmemVaddr := fun _ ↦ 0
      shmtop := 0 }
  nextpid := 1
  shmemCount := fun _ ↦ 0
  shmemPages := fun _ ↦ 0
  shmemPaddr := fun _ _ ↦ 0

def userinit (L : Link) (s : Kernel) : Except String Kernel :=
  match allocproc s with
  | (_, none) => throw "userinit: null pointer"
  | (s, some p) => do
    match ← setupkvm L s.freelist with
    | (_, none) => throw "userinit: out of memory?"
    | (m, some d) => do
      let (m, d) ← inituvm m d
      pure ((s.setFreelist m).setProc p
        { s.proc p with pgdir := d, sz := pgsize, state := .runnable })

/-- The boot of a machine with `ncpu` processors, as far as frames and processes are concerned:
`kinit`, the stack of `jmpkstack`, `kvmalloc`, a stack for each other processor, `userinit`. -/
def boot (L : Link) (ncpu : ℕ) : Except String Kernel := do
  let m ← kinit L
  match kalloc m with
  | none => throw "jmpkstack kalloc"
  | some (_, m) => do
    let (m, _) ← setupkvm L m
    userinit L (blank (m.drop (ncpu - 1)))

/-- The initial states. -/
def Booted (L : Link) (s : Kernel) : Prop := ∃ ncpu, boot L ncpu = .ok s

/-- Reachability from boot by calls that keep within bounds. -/
def Reach (L : Link) (s : Kernel) : Prop := Reachable (coreStep L) (Booted L) s

end CS537.Shm
