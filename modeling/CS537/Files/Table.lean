import Mathlib.Algebra.GroupWithZero.Nat
import Mathlib.Data.BitVec
import Mathlib.Data.Fintype.Basic
import Mathlib.Data.List.FinRange
import Mathlib.Logic.Function.Basic

/-!
# Open files and pipes

The file table of `p3/p3b/xv6/kernel/file.c`, the descriptors of each process, and the pipes of
`pipe.c`. A file that is no pipe is kept as far as its type: what `readi` and `writei` do with it
is the subject of the file system.

A process has its own place in its system call. What it does to its own descriptors, to the fields
of a file that only it refers to, or to a page that it has just been given, no other process sees,
and it is done together with the critical section beside it.
-/

namespace CS537.Files

open Function

abbrev Byte := BitVec 8

/-- `NFILE`. -/
def nfile : ℕ := 100

/-- `NOFILE`. -/
def nofile : ℕ := 16

/-- `NPROC`. -/
def nproc : ℕ := 64

/-- `PIPESIZE`. -/
def pipesize : ℕ := 512

/-- An index of `ftable.file`; it stands for the address `&ftable.file[i]` too. -/
abbrev FileNo := Fin nfile

abbrev Fd := Fin nofile

/-- An index of `ptable.proc`. -/
abbrev Slot := Fin nproc

/-- The slot of the first process, `initproc`. -/
def initproc : Slot := ⟨0, by decide⟩

inductive FileType
  | none | pipe | inode
  deriving DecidableEq, Repr

/-- `struct file`; `pipe` is the address of the page that holds the pipe. -/
structure File where
  type : FileType
  ref : ℤ
  readable : Bool
  writable : Bool
  pipe : ℕ
  deriving DecidableEq, Repr

structure Pipe where
  data : ℤ → Byte
  nread : BitVec 32
  nwrite : BitVec 32
  readopen : Bool
  writeopen : Bool

/-- SLEEPING, RUNNABLE and RUNNING are one state here: `active`. -/
inductive ProcState
  | unused | embryo | active | zombie
  deriving DecidableEq, Repr

/-- What follows the return of `fileclose`. `ret r`: the system call returns `r`. `close f`: `f` is
closed too, and the system call fails. `exit fd`: `exit` goes on with the descriptor `fd`. -/
inductive Then
  | ret (r : ℤ)
  | close (f : FileNo)
  | exit (fd : ℕ)
  deriving DecidableEq, Repr

/-- Where a process is in its system call. `user`: in none of those below. `close`: about to lock
the file table in `fileclose`. `pipeclose`: about to lock the pipe there. `pipe1`, `pipe2`: in
`pipealloc`, with one file or with both of them. `read`, `write`: about to lock the pipe `p` in
`piperead` or `pipewrite`, or asleep there, with `n` bytes to transfer in all and, for `write`, `i`
of them done. `fork`, `exit`: about to look at the descriptor `fd` in the loop of the call; the
child is `np`. -/
inductive Pos
  | user
  | close (f : FileNo) (k : Then)
  | pipeclose (p : ℕ) (writable : Bool) (k : Then)
  | pipe1 (f₀ : FileNo)
  | pipe2 (f₀ f₁ : FileNo)
  | read (p : ℕ) (n : ℤ)
  | write (p : ℕ) (n : ℤ) (i : ℕ)
  | fork (np : Slot) (fd : ℕ)
  | exit (fd : ℕ)
  deriving DecidableEq, Repr

/-- `asleep`: in `sleep`, on `&p->nread` in `piperead` and on `&p->nwrite` in `pipewrite`. `ret` is
what the last system call on files has returned. -/
structure Proc where
  state : ProcState
  ofile : Fd → Option FileNo
  killed : Bool
  pos : Pos
  asleep : Bool
  ret : ℤ

/-- The kernel's files. `pipe p` is the pipe in the page `p`, if `kalloc` has handed that page out
to `pipealloc`. -/
structure Kernel where
  file : FileNo → File
  pipe : ℕ → Option Pipe
  proc : Slot → Proc

/-! ## Processes -/

/-- The channels on which readers and writers of the pipe `p` sleep, `&p->nread` and
`&p->nwrite`. -/
inductive Chan
  | nread (p : ℕ)
  | nwrite (p : ℕ)
  deriving DecidableEq, Repr

/-- The channel on which a process sleeps. -/
def Pos.chan : Pos → Option Chan
  | .read p _ => some (.nread p)
  | .write p _ _ => some (.nwrite p)
  | _ => none

namespace Proc

variable (P : Proc)

def goto (pos : Pos) : Proc := { P with pos := pos }

def fallAsleep : Proc := { P with asleep := true }

/-- The process is made RUNNABLE if it sleeps on `chan`. -/
def wakeup (chan : Chan) : Proc := { P with asleep := P.asleep && P.pos.chan ≠ some chan }

/-- The system call returns `r`. -/
def reply (r : ℤ) : Proc := { P with pos := .user, ret := r }

def setFd (fd : Fd) (f : Option FileNo) : Proc := { P with ofile := update P.ofile fd f }

/-- `fileclose` has returned. -/
def resume : Then → Proc
  | .ret r => P.reply r
  | .close f => P.goto (.close f (.ret (-1)))
  | .exit fd => P.goto (.exit fd)

/-- `argfd`, with the word `fd` that `argint` has fetched. -/
def argfd (fd : ℤ) : Option (Fd × FileNo) :=
  if h : 0 ≤ fd ∧ fd < nofile then
    (P.ofile ⟨fd.toNat, by omega⟩).map fun f ↦ (⟨fd.toNat, by omega⟩, f)
  else none

/-- The first closed descriptor, which `fdalloc` takes. -/
def fdalloc : Option Fd := (List.finRange nofile).find? fun fd ↦ P.ofile fd = none

@[simp] theorem goto_state (x : Pos) : (P.goto x).state = P.state := rfl

@[simp] theorem goto_ofile (x : Pos) : (P.goto x).ofile = P.ofile := rfl

@[simp] theorem goto_pos (x : Pos) : (P.goto x).pos = x := rfl

@[simp] theorem goto_asleep (x : Pos) : (P.goto x).asleep = P.asleep := rfl

@[simp] theorem goto_killed (x : Pos) : (P.goto x).killed = P.killed := rfl

@[simp] theorem reply_state (r : ℤ) : (P.reply r).state = P.state := rfl

@[simp] theorem reply_ofile (r : ℤ) : (P.reply r).ofile = P.ofile := rfl

@[simp] theorem reply_pos (r : ℤ) : (P.reply r).pos = .user := rfl

@[simp] theorem reply_asleep (r : ℤ) : (P.reply r).asleep = P.asleep := rfl

@[simp] theorem wakeup_state (chan : Chan) : (P.wakeup chan).state = P.state := rfl

@[simp] theorem wakeup_ofile (chan : Chan) : (P.wakeup chan).ofile = P.ofile := rfl

@[simp] theorem wakeup_pos (chan : Chan) : (P.wakeup chan).pos = P.pos := rfl

@[simp] theorem wakeup_killed (chan : Chan) : (P.wakeup chan).killed = P.killed := rfl

@[simp] theorem fallAsleep_state : (P.fallAsleep).state = P.state := rfl

@[simp] theorem fallAsleep_ofile : (P.fallAsleep).ofile = P.ofile := rfl

@[simp] theorem fallAsleep_pos : (P.fallAsleep).pos = P.pos := rfl

@[simp] theorem fallAsleep_asleep : (P.fallAsleep).asleep = true := rfl

@[simp] theorem setFd_state (fd : Fd) (f : Option FileNo) : (P.setFd fd f).state = P.state := rfl

@[simp] theorem setFd_ofile (fd : Fd) (f : Option FileNo) :
    (P.setFd fd f).ofile = update P.ofile fd f := rfl

@[simp] theorem setFd_pos (fd : Fd) (f : Option FileNo) : (P.setFd fd f).pos = P.pos := rfl

@[simp] theorem setFd_asleep (fd : Fd) (f : Option FileNo) : (P.setFd fd f).asleep = P.asleep := rfl

@[simp] theorem resume_state (k : Then) : (P.resume k).state = P.state := by cases k <;> rfl

@[simp] theorem resume_ofile (k : Then) : (P.resume k).ofile = P.ofile := by cases k <;> rfl

@[simp] theorem resume_asleep (k : Then) : (P.resume k).asleep = P.asleep := by cases k <;> rfl

end Proc

namespace Kernel

variable (s : Kernel)

def setFile (f : FileNo) (x : File) : Kernel := { s with file := update s.file f x }

def setPipe (p : ℕ) (x : Option Pipe) : Kernel := { s with pipe := update s.pipe p x }

def setProc (q : Slot) (P : Proc) : Kernel := { s with proc := update s.proc q P }

def wakeup (chan : Chan) : Kernel := { s with proc := fun q ↦ (s.proc q).wakeup chan }

@[simp] theorem setFile_file (f : FileNo) (x : File) : (s.setFile f x).file = update s.file f x :=
  rfl

@[simp] theorem setFile_pipe (f : FileNo) (x : File) : (s.setFile f x).pipe = s.pipe := rfl

@[simp] theorem setFile_proc (f : FileNo) (x : File) : (s.setFile f x).proc = s.proc := rfl

@[simp] theorem setPipe_file (p : ℕ) (x : Option Pipe) : (s.setPipe p x).file = s.file := rfl

@[simp] theorem setPipe_pipe (p : ℕ) (x : Option Pipe) : (s.setPipe p x).pipe = update s.pipe p x :=
  rfl

@[simp] theorem setPipe_proc (p : ℕ) (x : Option Pipe) : (s.setPipe p x).proc = s.proc := rfl

@[simp] theorem setProc_file (q : Slot) (P : Proc) : (s.setProc q P).file = s.file := rfl

@[simp] theorem setProc_pipe (q : Slot) (P : Proc) : (s.setProc q P).pipe = s.pipe := rfl

@[simp] theorem setProc_proc (q : Slot) (P : Proc) : (s.setProc q P).proc = update s.proc q P := rfl

@[simp] theorem wakeup_file (chan : Chan) : (s.wakeup chan).file = s.file := rfl

@[simp] theorem wakeup_pipe (chan : Chan) : (s.wakeup chan).pipe = s.pipe := rfl

@[simp] theorem wakeup_proc (chan : Chan) : (s.wakeup chan).proc = fun q ↦ (s.proc q).wakeup chan :=
  rfl

theorem setProc_comm {q q' : Slot} (h : q ≠ q') (P P' : Proc) :
    (s.setProc q P).setProc q' P' = (s.setProc q' P').setProc q P := by
  simp only [setProc, update_comm h]

end Kernel

/-! ## The file table -/

/-- The file that `filealloc` takes. -/
def filealloc (s : Kernel) : Option FileNo :=
  (List.finRange nfile).find? fun f ↦ (s.file f).ref = 0

/-- `filealloc` has set the reference count of `f`. -/
def Kernel.refer (f : FileNo) (s : Kernel) : Kernel := s.setFile f { s.file f with ref := 1 }

def Kernel.addRef (f : FileNo) (d : ℤ) (s : Kernel) : Kernel :=
  s.setFile f { s.file f with ref := (s.file f).ref + d }

/-- The last reference to `f` is gone. -/
def Kernel.forget (f : FileNo) (s : Kernel) : Kernel :=
  s.setFile f { s.file f with ref := 0, type := .none }

namespace Kernel

variable (s : Kernel) (f : FileNo)

@[simp] theorem refer_file : (s.refer f).file = update s.file f { s.file f with ref := 1 } := rfl

@[simp] theorem refer_pipe : (s.refer f).pipe = s.pipe := rfl

@[simp] theorem refer_proc : (s.refer f).proc = s.proc := rfl

@[simp] theorem addRef_file (d : ℤ) :
    (s.addRef f d).file = update s.file f { s.file f with ref := (s.file f).ref + d } := rfl

@[simp] theorem addRef_pipe (d : ℤ) : (s.addRef f d).pipe = s.pipe := rfl

@[simp] theorem addRef_proc (d : ℤ) : (s.addRef f d).proc = s.proc := rfl

@[simp] theorem forget_file :
    (s.forget f).file = update s.file f { s.file f with ref := 0, type := .none } := rfl

@[simp] theorem forget_pipe : (s.forget f).pipe = s.pipe := rfl

@[simp] theorem forget_proc : (s.forget f).proc = s.proc := rfl

end Kernel

def filedup (f : FileNo) (s : Kernel) : Except String Kernel :=
  if (s.file f).ref < 1 then throw "filedup" else pure (s.addRef f 1)

/-- The section of `fileclose` under `ftable.lock`, with what follows it in the process `q`. -/
def fileclose (q : Slot) (f : FileNo) (k : Then) (s : Kernel) : Except String Kernel :=
  let ff := s.file f
  if ff.ref < 1 then throw "fileclose"
  else if 0 < ff.ref - 1 then pure ((s.addRef f (-1)).setProc q ((s.proc q).resume k))
  else if ff.type = .pipe then
    pure ((s.forget f).setProc q ((s.proc q).goto (.pipeclose ff.pipe ff.writable k)))
  else pure ((s.forget f).setProc q ((s.proc q).resume k))

/-! ## Pipes -/

namespace Pipe

variable (P : Pipe)

/-- `readopen` or `writeopen`. -/
def isOpen (writable : Bool) : Bool := if writable then P.writeopen else P.readopen

/-- The flag that `pipeclose` clears. -/
def shut (writable : Bool) : Pipe :=
  if writable then { P with writeopen := false } else { P with readopen := false }

/-- The pipe, unless both ends are closed and its page is freed. -/
def kept : Option Pipe := if P.readopen = false ∧ P.writeopen = false then none else some P

/-- `p->nread == p->nwrite`. -/
def Empty : Prop := P.nread = P.nwrite

/-- `p->nwrite == p->nread + PIPESIZE`. -/
def Full : Prop := P.nwrite = P.nread + BitVec.ofNat 32 pipesize

instance : Decidable P.Empty := inferInstanceAs (Decidable (_ = _))

instance : Decidable P.Full := inferInstanceAs (Decidable (_ = _))

/-- The index of the array that a counter leads to. -/
def index (c : BitVec 32) : ℤ := (c.toNat : ℤ) % pipesize

/-- `p->data[p->nwrite++ % PIPESIZE] = b`. -/
def store (b : Byte) : Pipe :=
  { P with data := update P.data (index P.nwrite) b, nwrite := P.nwrite + 1 }

/-- The rounds of the loop of `pipewrite` up to its end or a full pipe: the next is `i`, and `n` of
them are left. -/
def put (addr : ℕ → Byte) : ℕ → ℕ → Pipe → ℕ × Pipe
  | 0, i, P => (i, P)
  | n + 1, i, P => if P.Full then (i, P) else put addr n (i + 1) (P.store (addr i))

/-- The copy loop of `piperead`, `n` rounds at most. -/
def get : ℕ → Pipe → List Byte × Pipe
  | 0, P => ([], P)
  | n + 1, P =>
    if P.Empty then ([], P)
    else
      let (l, P') := get n { P with nread := P.nread + 1 }
      (P.data (index P.nread) :: l, P')

/-- The pipe that `pipealloc` makes of a page; `kfree` has filled it with ones. -/
def fresh : Pipe := ⟨fun _ ↦ 1, 0, 0, true, true⟩

end Pipe

/-- A pipe whose page has been freed. -/
def freed : Except String Kernel := throw "freed pipe"

def pipeclose (q : Slot) (p : ℕ) (writable : Bool) (k : Then) (s : Kernel) :
    Except String Kernel :=
  match s.pipe p with
  | none => freed
  | some P =>
    pure (((s.setPipe p (P.shut writable).kept).wakeup
      (if writable then .nread p else .nwrite p)).setProc q ((s.proc q).resume k))

/-- A section of `piperead`: from the lock, or the return of `sleep`, to the release of the lock or
the next `sleep`. -/
def piperead (q : Slot) (p : ℕ) (n : ℤ) (s : Kernel) : Except String Kernel :=
  match s.pipe p with
  | none => freed
  | some P =>
    if P.Empty ∧ P.writeopen then
      if (s.proc q).killed then pure (s.setProc q ((s.proc q).reply (-1)))
      else pure (s.setProc q (s.proc q).fallAsleep)
    else
      let (l, P) := P.get n.toNat
      pure (((s.setPipe p (some P)).wakeup (.nwrite p)).setProc q ((s.proc q).reply l.length))

/-- A section of `pipewrite`, in the same way. The bytes `addr` are those that the buffer of the
caller holds meanwhile. -/
def pipewrite (q : Slot) (p : ℕ) (n : ℤ) (i : ℕ) (addr : ℕ → Byte) (s : Kernel) :
    Except String Kernel :=
  match s.pipe p with
  | none => freed
  | some P =>
    let (j, P) := P.put addr (n.toNat - i) i
    let s' := s.setPipe p (some P)
    if n.toNat ≤ j then pure ((s'.wakeup (.nread p)).setProc q ((s.proc q).reply n))
    else if P.readopen = false ∨ (s.proc q).killed then
      pure (s'.setProc q ((s.proc q).reply (-1)))
    else
      pure ((s'.wakeup (.nread p)).setProc q ((s.proc q).goto (.write p n j)).fallAsleep)

end CS537.Files
