import CS537.Lib.Transition
import CS537.Files.Table

/-!
# Runs of the descriptor layer

The system calls of `sysfile.c` on descriptors, with `fork`, `exit` and `wait` of `proc.c` as far as
they touch descriptors, for any number of processes on any number of processors. A move is one
critical section with what the process does by itself beside it. A move that panics, or reaches for
a pipe whose page has been freed, has no successor in `step`; `move` tells it from a label that is
not enabled.

`init` does not exit. A `fork` that fails does so before it looks at a descriptor, and is left out.
-/

namespace CS537.Files

open Function Transition

/-! ## System calls -/

def sysDup (q : Slot) (fd : ℤ) (s : Kernel) : Except String Kernel :=
  match (s.proc q).argfd fd, (s.proc q).fdalloc with
  | some (_, f), some fd' => do
    let s' ← filedup f s
    pure (s'.setProc q (((s.proc q).setFd fd' (some f)).reply fd'))
  | _, _ => pure (s.setProc q ((s.proc q).reply (-1)))

/-- `O_WRONLY`. -/
def oWronly : BitVec 32 := 0x001#32

/-- `O_RDWR`. -/
def oRdwr : BitVec 32 := 0x002#32

/-- `sys_open`, when it has its inode. -/
def sysOpen (q : Slot) (omode : BitVec 32) (s : Kernel) : Kernel :=
  match filealloc s with
  | none => s.setProc q ((s.proc q).reply (-1))
  | some f =>
    match (s.proc q).fdalloc with
    | none => (s.refer f).setProc q ((s.proc q).goto (.close f (.ret (-1))))
    | some fd =>
      (s.setFile f
        { type := .inode
          ref := 1
          readable := omode &&& oWronly = 0
          writable := omode &&& oWronly ≠ 0 ∨ omode &&& oRdwr ≠ 0
          pipe := (s.file f).pipe }).setProc q (((s.proc q).setFd fd (some f)).reply fd)

def sysClose (q : Slot) (fd : ℤ) (s : Kernel) : Kernel :=
  match (s.proc q).argfd fd with
  | none => s.setProc q ((s.proc q).reply (-1))
  | some (fd, f) => s.setProc q (((s.proc q).setFd fd none).goto (.close f (.ret 0)))

/-- `sys_pipe` up to the first `filealloc` of `pipealloc`. -/
def sysPipe (q : Slot) (s : Kernel) : Kernel :=
  match filealloc s with
  | none => s.setProc q ((s.proc q).reply (-1))
  | some f₀ => (s.refer f₀).setProc q ((s.proc q).goto (.pipe1 f₀))

/-- The second `filealloc` of `pipealloc`. -/
def pipealloc (q : Slot) (f₀ : FileNo) (s : Kernel) : Kernel :=
  match filealloc s with
  | none => s.setProc q ((s.proc q).goto (.close f₀ (.ret (-1))))
  | some f₁ => (s.refer f₁).setProc q ((s.proc q).goto (.pipe2 f₀ f₁))

/-- One of the two files of a new pipe. -/
def File.toEnd (x : File) (p : ℕ) (writable : Bool) : File :=
  { x with type := .pipe, readable := !writable, writable := writable, pipe := p }

/-- `pipealloc` has made a pipe in the page `p`. -/
def Kernel.setEnds (f₀ f₁ : FileNo) (p : ℕ) (s : Kernel) : Kernel :=
  ((s.setPipe p (some .fresh)).setFile f₀ ((s.file f₀).toEnd p false)).setFile f₁
    ((s.file f₁).toEnd p true)

@[simp] theorem Kernel.setEnds_proc (f₀ f₁ : FileNo) (p : ℕ) (s : Kernel) :
    (s.setEnds f₀ f₁ p).proc = s.proc := rfl

@[simp] theorem Kernel.setEnds_pipe (f₀ f₁ : FileNo) (p : ℕ) (s : Kernel) :
    (s.setEnds f₀ f₁ p).pipe = update s.pipe p (some .fresh) := rfl

@[simp] theorem Kernel.setEnds_file (f₀ f₁ : FileNo) (p : ℕ) (s : Kernel) :
    (s.setEnds f₀ f₁ p).file =
      update (update s.file f₀ ((s.file f₀).toEnd p false)) f₁ ((s.file f₁).toEnd p true) := rfl

/-- The rest of `sys_pipe` from `kalloc` on, which returns `r`. -/
def pipeRest (q : Slot) (f₀ f₁ : FileNo) (r : Option ℕ) (s : Kernel) : Kernel :=
  match r with
  | none => s.setProc q ((s.proc q).goto (.close f₀ (.close f₁)))
  | some p =>
    match (s.proc q).fdalloc with
    | none => (s.setEnds f₀ f₁ p).setProc q ((s.proc q).goto (.close f₀ (.close f₁)))
    | some fd₀ =>
      match ((s.proc q).setFd fd₀ (some f₀)).fdalloc with
      | none => (s.setEnds f₀ f₁ p).setProc q ((s.proc q).goto (.close f₀ (.close f₁)))
      | some fd₁ => (s.setEnds f₀ f₁ p).setProc q
          ((((s.proc q).setFd fd₀ (some f₀)).setFd fd₁ (some f₁)).reply 0)

/-- `sys_read` and `fileread`, up to the call of `piperead`. -/
def sysRead (q : Slot) (fd n : ℤ) (s : Kernel) : Except String Kernel :=
  match (s.proc q).argfd fd with
  | none => pure (s.setProc q ((s.proc q).reply (-1)))
  | some (_, f) =>
    if (s.file f).readable = false then pure (s.setProc q ((s.proc q).reply (-1)))
    else match (s.file f).type with
      | .pipe => pure (s.setProc q ((s.proc q).goto (.read (s.file f).pipe n)))
      | .inode => pure s
      | .none => throw "fileread"

/-- `sys_write` and `filewrite`, up to the call of `pipewrite`. -/
def sysWrite (q : Slot) (fd n : ℤ) (s : Kernel) : Except String Kernel :=
  match (s.proc q).argfd fd with
  | none => pure (s.setProc q ((s.proc q).reply (-1)))
  | some (_, f) =>
    if (s.file f).writable = false then pure (s.setProc q ((s.proc q).reply (-1)))
    else match (s.file f).type with
      | .pipe => pure (s.setProc q ((s.proc q).goto (.write (s.file f).pipe n 0)))
      | .inode => pure s
      | .none => throw "filewrite"

/-- A round of the loop of `fork` over the descriptors, or the end of `fork`. -/
def forkNext (q np : Slot) (fd : ℕ) (s : Kernel) : Except String Kernel :=
  if h : fd < nofile then
    match (s.proc q).ofile ⟨fd, h⟩ with
    | none => pure (s.setProc q ((s.proc q).goto (.fork np (fd + 1))))
    | some f => do
      let s' ← filedup f s
      pure ((s'.setProc np ((s.proc np).setFd ⟨fd, h⟩ (some f))).setProc q
        ((s.proc q).goto (.fork np (fd + 1))))
  else
    pure ((s.setProc np { s.proc np with state := .active }).setProc q ((s.proc q).goto .user))

/-- A round of the loop of `exit` over the descriptors, or the end of `exit`. -/
def exitNext (q : Slot) (fd : ℕ) (s : Kernel) : Kernel :=
  if h : fd < nofile then
    match (s.proc q).ofile ⟨fd, h⟩ with
    | none => s.setProc q ((s.proc q).goto (.exit (fd + 1)))
    | some f => s.setProc q
        (((s.proc q).setFd ⟨fd, h⟩ none).goto (.close f (.exit (fd + 1))))
  else s.setProc q { s.proc q with state := .zombie, pos := .user }

/-! ## Moves -/

/-- The first ten begin a call of the process `q`, or come from another process; the others go on
with the call in which `q` is. -/
inductive Act
  | sysDup (q : Slot) (fd : ℤ)
  | sysOpen (q : Slot) (omode : BitVec 32)
  | sysClose (q : Slot) (fd : ℤ)
  | sysPipe (q : Slot)
  | sysRead (q : Slot) (fd n : ℤ)
  | sysWrite (q : Slot) (fd n : ℤ)
  | fork (q np : Slot)
  | exit (q : Slot)
  /-- `wait`, in the parent of `q` -/
  | wait (q : Slot)
  | kill (q : Slot)
  | fileclose (q : Slot)
  | pipeclose (q : Slot)
  | pipealloc (q : Slot)
  /-- `kalloc` returns `r` -/
  | kalloc (q : Slot) (r : Option ℕ)
  | piperead (q : Slot)
  | pipewrite (q : Slot) (addr : ℕ → Byte)
  | forkNext (q : Slot)
  | exitNext (q : Slot)

/-- The process is in none of the calls of this module. -/
def Kernel.Idle (s : Kernel) (q : Slot) : Prop :=
  (s.proc q).state = .active ∧ (s.proc q).pos = .user

instance (s : Kernel) (q : Slot) : Decidable (s.Idle q) :=
  inferInstanceAs (Decidable (_ ∧ _))

/-- The process may begin a call: `trap` lets a killed process only exit. -/
def Kernel.Ready (s : Kernel) (q : Slot) : Prop := s.Idle q ∧ (s.proc q).killed = false

instance (s : Kernel) (q : Slot) : Decidable (s.Ready q) :=
  inferInstanceAs (Decidable (_ ∧ _))

/-- `kalloc` does not hand out a page in which there is a pipe. -/
def Kernel.Grants (s : Kernel) (r : Option ℕ) : Prop := ∀ p, r = some p → s.pipe p = none

instance (s : Kernel) (r : Option ℕ) : Decidable (s.Grants r) :=
  match r with
  | none => isTrue nofun
  | some p => decidable_of_iff ((s.pipe p).isNone)
      ⟨fun h _ hp ↦ by rw [← Option.some.inj hp]; simpa using h, fun h ↦ by simp [h p rfl]⟩

/-- The move under the label, when it is enabled. -/
def move (a : Act) (s : Kernel) : Option (Except String Kernel) :=
  match a with
  | .sysDup q fd => if s.Ready q then some (sysDup q fd s) else none
  | .sysOpen q omode => if s.Ready q then some (pure (sysOpen q omode s)) else none
  | .sysClose q fd => if s.Ready q then some (pure (sysClose q fd s)) else none
  | .sysPipe q => if s.Ready q then some (pure (sysPipe q s)) else none
  | .sysRead q fd n => if s.Ready q then some (sysRead q fd n s) else none
  | .sysWrite q fd n => if s.Ready q then some (sysWrite q fd n s) else none
  | .fork q np =>
    if s.Ready q ∧ (s.proc np).state = .unused then
      some (pure ((s.setProc np { s.proc np with state := .embryo }).setProc q
        ((s.proc q).goto (.fork np 0))))
    else none
  | .exit q =>
    if s.Idle q ∧ q ≠ initproc then some (pure (s.setProc q ((s.proc q).goto (.exit 0))))
    else none
  | .wait q =>
    if (s.proc q).state = .zombie then
      some (pure (s.setProc q { s.proc q with state := .unused, killed := false }))
    else none
  | .kill q =>
    some (pure (s.setProc q { s.proc q with killed := true, asleep := false }))
  | .fileclose q =>
    match (s.proc q).pos with
    | .close f k => some (fileclose q f k s)
    | _ => none
  | .pipeclose q =>
    match (s.proc q).pos with
    | .pipeclose p w k => some (pipeclose q p w k s)
    | _ => none
  | .pipealloc q =>
    match (s.proc q).pos with
    | .pipe1 f₀ => some (pure (pipealloc q f₀ s))
    | _ => none
  | .kalloc q r =>
    match (s.proc q).pos with
    | .pipe2 f₀ f₁ => if s.Grants r then some (pure (pipeRest q f₀ f₁ r s)) else none
    | _ => none
  | .piperead q =>
    match (s.proc q).pos with
    | .read p n => if (s.proc q).asleep then none else some (piperead q p n s)
    | _ => none
  | .pipewrite q addr =>
    match (s.proc q).pos with
    | .write p n i => if (s.proc q).asleep then none else some (pipewrite q p n i addr s)
    | _ => none
  | .forkNext q =>
    match (s.proc q).pos with
    | .fork np fd => some (forkNext q np fd s)
    | _ => none
  | .exitNext q =>
    match (s.proc q).pos with
    | .exit fd => some (pure (exitNext q fd s))
    | _ => none

def step (a : Act) (s : Kernel) : Option Kernel := (move a s).bind Except.toOption

/-- `userinit` has made the first process. -/
def boot : Kernel where
  file := fun _ ↦ ⟨.none, 0, false, false, 0⟩
  pipe := fun _ ↦ none
  proc := fun q ↦
    { state := if q = initproc then .active else .unused
      ofile := fun _ ↦ none
      killed := false
      pos := .user
      asleep := false
      ret := 0 }

/-- Reachability from boot. -/
def Reach (s : Kernel) : Prop := Reachable step (· = boot) s

/-! ## What a move does -/

/-- The labels under which a call of `q` on descriptors begins, and may fail at once. -/
inductive Act.Begins (q : Slot) : Act → Prop
  | sysDup (fd : ℤ) : Begins q (.sysDup q fd)
  | sysOpen (omode : BitVec 32) : Begins q (.sysOpen q omode)
  | sysClose (fd : ℤ) : Begins q (.sysClose q fd)
  | sysPipe : Begins q (.sysPipe q)
  | sysRead (fd n : ℤ) : Begins q (.sysRead q fd n)
  | sysWrite (fd n : ℤ) : Begins q (.sysWrite q fd n)

/-- The moves of the descriptor layer. -/
inductive Trans (s : Kernel) : Act → Kernel → Prop
  | fail {a q} (ha : a.Begins q) (hq : s.Ready q) :
      Trans s a (s.setProc q ((s.proc q).reply (-1)))
  | sysDup {q fd fd₀ fd' f} (hq : s.Ready q) (hf : (s.proc q).ofile fd₀ = some f)
      (hfree : (s.proc q).ofile fd' = none) (href : 1 ≤ (s.file f).ref) :
      Trans s (.sysDup q fd) ((s.addRef f 1).setProc q (((s.proc q).setFd fd' (some f)).reply fd'))
  | openFull {q omode f} (hq : s.Ready q) (hf : (s.file f).ref = 0) :
      Trans s (.sysOpen q omode)
        ((s.refer f).setProc q ((s.proc q).goto (.close f (.ret (-1)))))
  | sysOpen {q omode f fd readable writable} (hq : s.Ready q) (hf : (s.file f).ref = 0)
      (hfree : (s.proc q).ofile fd = none) :
      Trans s (.sysOpen q omode)
        ((s.setFile f ⟨.inode, 1, readable, writable, (s.file f).pipe⟩).setProc q
          (((s.proc q).setFd fd (some f)).reply fd))
  | sysClose {q n fd f} (hq : s.Ready q) (hf : (s.proc q).ofile fd = some f) :
      Trans s (.sysClose q n)
        (s.setProc q (((s.proc q).setFd fd none).goto (.close f (.ret 0))))
  | sysPipe {q f₀} (hq : s.Ready q) (hf : (s.file f₀).ref = 0) :
      Trans s (.sysPipe q) ((s.refer f₀).setProc q ((s.proc q).goto (.pipe1 f₀)))
  | pipeallocFail {q f₀} (hq : (s.proc q).pos = .pipe1 f₀) :
      Trans s (.pipealloc q) (s.setProc q ((s.proc q).goto (.close f₀ (.ret (-1)))))
  | pipealloc {q f₀ f₁} (hq : (s.proc q).pos = .pipe1 f₀) (hf : (s.file f₁).ref = 0) :
      Trans s (.pipealloc q) ((s.refer f₁).setProc q ((s.proc q).goto (.pipe2 f₀ f₁)))
  | kallocFail {q f₀ f₁} (hq : (s.proc q).pos = .pipe2 f₀ f₁) :
      Trans s (.kalloc q none) (s.setProc q ((s.proc q).goto (.close f₀ (.close f₁))))
  | pipeFull {q f₀ f₁ p} (hq : (s.proc q).pos = .pipe2 f₀ f₁) (hp : s.pipe p = none) :
      Trans s (.kalloc q (some p))
        ((s.setEnds f₀ f₁ p).setProc q ((s.proc q).goto (.close f₀ (.close f₁))))
  | pipe {q f₀ f₁ p fd₀ fd₁} (hq : (s.proc q).pos = .pipe2 f₀ f₁) (hp : s.pipe p = none)
      (hfree₀ : (s.proc q).ofile fd₀ = none) (hfree₁ : (s.proc q).ofile fd₁ = none)
      (hne : fd₁ ≠ fd₀) :
      Trans s (.kalloc q (some p)) ((s.setEnds f₀ f₁ p).setProc q
        ((((s.proc q).setFd fd₀ (some f₀)).setFd fd₁ (some f₁)).reply 0))
  | sysRead {q n fd m f} (hq : s.Ready q) (hf : (s.proc q).ofile fd = some f)
      (hread : (s.file f).readable = true) (htype : (s.file f).type = .pipe) :
      Trans s (.sysRead q n m) (s.setProc q ((s.proc q).goto (.read (s.file f).pipe m)))
  | sysWrite {q n fd m f} (hq : s.Ready q) (hf : (s.proc q).ofile fd = some f)
      (hwrite : (s.file f).writable = true) (htype : (s.file f).type = .pipe) :
      Trans s (.sysWrite q n m) (s.setProc q ((s.proc q).goto (.write (s.file f).pipe m 0)))
  | inode {a q} (ha : a.Begins q) : Trans s a s
  | fork {q np} (hq : s.Ready q) (hnp : (s.proc np).state = .unused) :
      Trans s (.fork q np) ((s.setProc np { s.proc np with state := .embryo }).setProc q
        ((s.proc q).goto (.fork np 0)))
  | exit {q} (hq : s.Idle q) (hinit : q ≠ initproc) :
      Trans s (.exit q) (s.setProc q ((s.proc q).goto (.exit 0)))
  | wait {q} (hq : (s.proc q).state = .zombie) :
      Trans s (.wait q) (s.setProc q { s.proc q with state := .unused, killed := false })
  | kill {q} :
      Trans s (.kill q) (s.setProc q { s.proc q with killed := true, asleep := false })
  | drop {q f k} (hq : (s.proc q).pos = .close f k) (href : 1 < (s.file f).ref) :
      Trans s (.fileclose q) ((s.addRef f (-1)).setProc q ((s.proc q).resume k))
  | dropLast {q f k} (hq : (s.proc q).pos = .close f k) (href : (s.file f).ref = 1)
      (htype : (s.file f).type ≠ .pipe) :
      Trans s (.fileclose q) ((s.forget f).setProc q ((s.proc q).resume k))
  | dropEnd {q f k} (hq : (s.proc q).pos = .close f k) (href : (s.file f).ref = 1)
      (htype : (s.file f).type = .pipe) :
      Trans s (.fileclose q) ((s.forget f).setProc q
        ((s.proc q).goto (.pipeclose (s.file f).pipe (s.file f).writable k)))
  | pipeclose {q p w k P} (hq : (s.proc q).pos = .pipeclose p w k) (hp : s.pipe p = some P) :
      Trans s (.pipeclose q) (((s.setPipe p (P.shut w).kept).wakeup
        (if w then .nread p else .nwrite p)).setProc q ((s.proc q).resume k))
  | readKilled {q p n P} (hq : (s.proc q).pos = .read p n) (hawake : (s.proc q).asleep = false)
      (hp : s.pipe p = some P) (hempty : P.Empty ∧ P.writeopen) (hkill : (s.proc q).killed) :
      Trans s (.piperead q) (s.setProc q ((s.proc q).reply (-1)))
  | readSleep {q p n P} (hq : (s.proc q).pos = .read p n) (hawake : (s.proc q).asleep = false)
      (hp : s.pipe p = some P) (hempty : P.Empty ∧ P.writeopen)
      (hkill : (s.proc q).killed = false) :
      Trans s (.piperead q) (s.setProc q (s.proc q).fallAsleep)
  | piperead {q p n P l P'} (hq : (s.proc q).pos = .read p n) (hawake : (s.proc q).asleep = false)
      (hp : s.pipe p = some P) (hmore : ¬(P.Empty ∧ P.writeopen)) (hget : P.get n.toNat = (l, P')) :
      Trans s (.piperead q) (((s.setPipe p (some P')).wakeup (.nwrite p)).setProc q
        ((s.proc q).reply l.length))
  | pipewrite {q p n i P addr j P'} (hq : (s.proc q).pos = .write p n i)
      (hawake : (s.proc q).asleep = false) (hp : s.pipe p = some P)
      (hput : P.put addr (n.toNat - i) i = (j, P')) (hdone : n.toNat ≤ j) :
      Trans s (.pipewrite q addr) (((s.setPipe p (some P')).wakeup (.nread p)).setProc q
        ((s.proc q).reply n))
  | writeBroken {q p n i P addr j P'} (hq : (s.proc q).pos = .write p n i)
      (hawake : (s.proc q).asleep = false) (hp : s.pipe p = some P)
      (hput : P.put addr (n.toNat - i) i = (j, P')) (hfull : j < n.toNat)
      (hbroken : P'.readopen = false ∨ (s.proc q).killed) :
      Trans s (.pipewrite q addr) ((s.setPipe p (some P')).setProc q ((s.proc q).reply (-1)))
  | writeSleep {q p n i P addr j P'} (hq : (s.proc q).pos = .write p n i)
      (hawake : (s.proc q).asleep = false) (hp : s.pipe p = some P)
      (hput : P.put addr (n.toNat - i) i = (j, P')) (hfull : j < n.toNat)
      (hreadopen : P'.readopen = true) (hkill : (s.proc q).killed = false) :
      Trans s (.pipewrite q addr) (((s.setPipe p (some P')).wakeup (.nread p)).setProc q
        ((s.proc q).goto (.write p n j)).fallAsleep)
  | forkSkip {q np fd} (hq : (s.proc q).pos = .fork np fd) (hfd : fd < nofile)
      (hf : (s.proc q).ofile ⟨fd, hfd⟩ = none) :
      Trans s (.forkNext q) (s.setProc q ((s.proc q).goto (.fork np (fd + 1))))
  | forkDup {q np fd f} (hq : (s.proc q).pos = .fork np fd) (hfd : fd < nofile)
      (hf : (s.proc q).ofile ⟨fd, hfd⟩ = some f) (href : 1 ≤ (s.file f).ref) :
      Trans s (.forkNext q) (((s.addRef f 1).setProc np
        ((s.proc np).setFd ⟨fd, hfd⟩ (some f))).setProc q ((s.proc q).goto (.fork np (fd + 1))))
  | forkEnd {q np fd} (hq : (s.proc q).pos = .fork np fd) (hfd : nofile ≤ fd) :
      Trans s (.forkNext q) ((s.setProc np { s.proc np with state := .active }).setProc q
        ((s.proc q).goto .user))
  | exitSkip {q fd} (hq : (s.proc q).pos = .exit fd) (hfd : fd < nofile)
      (hf : (s.proc q).ofile ⟨fd, hfd⟩ = none) :
      Trans s (.exitNext q) (s.setProc q ((s.proc q).goto (.exit (fd + 1))))
  | exitClose {q fd f} (hq : (s.proc q).pos = .exit fd) (hfd : fd < nofile)
      (hf : (s.proc q).ofile ⟨fd, hfd⟩ = some f) :
      Trans s (.exitNext q) (s.setProc q
        (((s.proc q).setFd ⟨fd, hfd⟩ none).goto (.close f (.exit (fd + 1)))))
  | exitEnd {q fd} (hq : (s.proc q).pos = .exit fd) (hfd : nofile ≤ fd) :
      Trans s (.exitNext q) (s.setProc q { s.proc q with state := .zombie, pos := .user })

variable {s t : Kernel} {q : Slot}

theorem Proc.argfd_eq_some {P : Proc} {n : ℤ} {fd : Fd} {f : FileNo}
    (h : P.argfd n = some (fd, f)) : P.ofile fd = some f := by
  rw [argfd] at h
  split at h
  · obtain ⟨g, hg, heq⟩ := Option.map_eq_some_iff.mp h
    obtain ⟨rfl, rfl⟩ := Prod.mk.inj heq
    exact hg
  · cases h

theorem Proc.fdalloc_eq_some {P : Proc} {fd : Fd} (h : P.fdalloc = some fd) :
    P.ofile fd = none := by simpa using List.find?_some h

theorem filealloc_eq_some {f : FileNo} (h : filealloc s = some f) : (s.file f).ref = 0 := by
  simpa using List.find?_some h

theorem filedup_eq_ok {f : FileNo} (h : filedup f s = .ok t) :
    1 ≤ (s.file f).ref ∧ t = s.addRef f 1 := by
  rw [filedup] at h
  split at h
  · cases h
  · exact ⟨by omega, (Except.ok.inj h).symm⟩

theorem trans_sysDup {fd : ℤ} (hq : s.Ready q) (h : sysDup q fd s = .ok t) :
    Trans s (.sysDup q fd) t := by
  rw [sysDup] at h
  split at h
  · next f fd' hf hfree =>
    cases hdup : filedup f s with
    | error e => simp [hdup] at h
    | ok s' =>
      obtain ⟨href, rfl⟩ := filedup_eq_ok hdup
      rw [hdup] at h
      obtain rfl := Except.ok.inj h
      exact .sysDup hq (Proc.argfd_eq_some hf) (Proc.fdalloc_eq_some hfree) href
  · obtain rfl := Except.ok.inj h
    exact .fail (.sysDup fd) hq

theorem trans_sysOpen {omode : BitVec 32} (hq : s.Ready q) :
    Trans s (.sysOpen q omode) (sysOpen q omode s) := by
  rw [sysOpen]
  split
  · exact .fail (.sysOpen omode) hq
  · next f hf =>
    split
    · exact .openFull hq (filealloc_eq_some hf)
    · next fd hfd => exact .sysOpen hq (filealloc_eq_some hf) (Proc.fdalloc_eq_some hfd)

theorem trans_sysClose {fd : ℤ} (hq : s.Ready q) : Trans s (.sysClose q fd) (sysClose q fd s) := by
  rw [sysClose]
  split
  · exact .fail (.sysClose fd) hq
  · exact .sysClose hq (Proc.argfd_eq_some ‹_›)

theorem trans_sysPipe (hq : s.Ready q) : Trans s (.sysPipe q) (sysPipe q s) := by
  rw [sysPipe]
  split
  · exact .fail .sysPipe hq
  · exact .sysPipe hq (filealloc_eq_some ‹_›)

theorem trans_pipealloc {f₀ : FileNo} (hq : (s.proc q).pos = .pipe1 f₀) :
    Trans s (.pipealloc q) (pipealloc q f₀ s) := by
  rw [pipealloc]
  split
  · exact .pipeallocFail hq
  · exact .pipealloc hq (filealloc_eq_some ‹_›)

theorem trans_pipeRest {f₀ f₁ : FileNo} {r : Option ℕ} (hq : (s.proc q).pos = .pipe2 f₀ f₁)
    (hr : s.Grants r) : Trans s (.kalloc q r) (pipeRest q f₀ f₁ r s) := by
  cases r with
  | none => exact .kallocFail hq
  | some p =>
    rw [pipeRest]
    split
    · exact .pipeFull hq (hr _ rfl)
    · next fd₀ hfd₀ =>
      have hfree₀ := Proc.fdalloc_eq_some hfd₀
      split
      · exact .pipeFull hq (hr _ rfl)
      · next fd₁ hfd₁ =>
        have hfree₁ := Proc.fdalloc_eq_some hfd₁
        rw [Proc.setFd_ofile] at hfree₁
        have hne : fd₁ ≠ fd₀ := by
          rintro rfl
          simp at hfree₁
        rw [update_of_ne hne] at hfree₁
        exact .pipe hq (hr _ rfl) hfree₀ hfree₁ hne

theorem trans_sysRead {fd n : ℤ} (hq : s.Ready q) (h : sysRead q fd n s = .ok t) :
    Trans s (.sysRead q fd n) t := by
  rw [sysRead] at h
  split at h
  · obtain rfl := Except.ok.inj h
    exact .fail (.sysRead fd n) hq
  split at h
  · obtain rfl := Except.ok.inj h
    exact .fail (.sysRead fd n) hq
  split at h
  · obtain rfl := Except.ok.inj h
    exact .sysRead hq (Proc.argfd_eq_some ‹_›) (Bool.eq_true_of_not_eq_false ‹_›) ‹_›
  · obtain rfl := Except.ok.inj h
    exact .inode (.sysRead fd n)
  · cases h

theorem trans_sysWrite {fd n : ℤ} (hq : s.Ready q) (h : sysWrite q fd n s = .ok t) :
    Trans s (.sysWrite q fd n) t := by
  rw [sysWrite] at h
  split at h
  · obtain rfl := Except.ok.inj h
    exact .fail (.sysWrite fd n) hq
  split at h
  · obtain rfl := Except.ok.inj h
    exact .fail (.sysWrite fd n) hq
  split at h
  · obtain rfl := Except.ok.inj h
    exact .sysWrite hq (Proc.argfd_eq_some ‹_›) (Bool.eq_true_of_not_eq_false ‹_›) ‹_›
  · obtain rfl := Except.ok.inj h
    exact .inode (.sysWrite fd n)
  · cases h

theorem trans_fileclose {f : FileNo} {k : Then} (hq : (s.proc q).pos = .close f k)
    (h : fileclose q f k s = .ok t) : Trans s (.fileclose q) t := by
  simp only [fileclose] at h
  split at h
  · cases h
  split at h
  · obtain rfl := Except.ok.inj h
    exact .drop hq (by omega)
  split at h
  · obtain rfl := Except.ok.inj h
    exact .dropEnd hq (by omega) ‹_›
  · obtain rfl := Except.ok.inj h
    exact .dropLast hq (by omega) ‹_›

theorem trans_pipeclose {p : ℕ} {w : Bool} {k : Then} (hq : (s.proc q).pos = .pipeclose p w k)
    (h : pipeclose q p w k s = .ok t) : Trans s (.pipeclose q) t := by
  rw [pipeclose] at h
  split at h
  · cases h
  · obtain rfl := Except.ok.inj h
    exact .pipeclose hq ‹_›

theorem trans_piperead {p : ℕ} {n : ℤ} (hq : (s.proc q).pos = .read p n)
    (hawake : (s.proc q).asleep = false) (h : piperead q p n s = .ok t) :
    Trans s (.piperead q) t := by
  rw [piperead] at h
  split at h
  · cases h
  split at h
  · split at h
    · obtain rfl := Except.ok.inj h
      exact .readKilled hq hawake ‹_› ‹_› ‹_›
    · obtain rfl := Except.ok.inj h
      exact .readSleep hq hawake ‹_› ‹_› (Bool.eq_false_of_not_eq_true ‹_›)
  · obtain rfl := Except.ok.inj h
    exact .piperead hq hawake ‹_› ‹_› rfl

theorem trans_pipewrite {p : ℕ} {n : ℤ} {i : ℕ} {addr : ℕ → Byte}
    (hq : (s.proc q).pos = .write p n i) (hawake : (s.proc q).asleep = false)
    (h : pipewrite q p n i addr s = .ok t) : Trans s (.pipewrite q addr) t := by
  rw [pipewrite] at h
  split at h
  · cases h
  simp only at h
  split at h
  · obtain rfl := Except.ok.inj h
    exact .pipewrite hq hawake ‹_› rfl ‹_›
  split at h
  · obtain rfl := Except.ok.inj h
    exact .writeBroken hq hawake ‹_› rfl (by omega) ‹_›
  · next hfull hbroken =>
    obtain rfl := Except.ok.inj h
    rw [not_or, Bool.not_eq_false, Bool.not_eq_true] at hbroken
    exact .writeSleep hq hawake ‹_› rfl (by omega) hbroken.1 hbroken.2

theorem trans_forkNext {np : Slot} {fd : ℕ} (hq : (s.proc q).pos = .fork np fd)
    (h : forkNext q np fd s = .ok t) : Trans s (.forkNext q) t := by
  rw [forkNext] at h
  split at h
  · split at h
    · obtain rfl := Except.ok.inj h
      exact .forkSkip hq ‹_› ‹_›
    · next f hf =>
      cases hdup : filedup f s with
      | error e => simp [hdup] at h
      | ok s' =>
        obtain ⟨href, rfl⟩ := filedup_eq_ok hdup
        rw [hdup] at h
        obtain rfl := Except.ok.inj h
        exact .forkDup hq ‹_› hf href
  · obtain rfl := Except.ok.inj h
    exact .forkEnd hq (by omega)

theorem trans_exitNext {fd : ℕ} (hq : (s.proc q).pos = .exit fd) :
    Trans s (.exitNext q) (exitNext q fd s) := by
  rw [exitNext]
  split
  · split
    · exact .exitSkip hq ‹_› ‹_›
    · exact .exitClose hq ‹_› ‹_›
  · exact .exitEnd hq (by omega)

theorem step_eq_some {a : Act} : step a s = some t ↔ move a s = some (.ok t) := by
  rw [step, Option.bind_eq_some_iff]
  constructor
  · rintro ⟨r, hr, ht⟩
    cases r with
    | error e => cases ht
    | ok u => rw [hr, ← Option.some.inj ht]
  · exact fun h ↦ ⟨_, h, rfl⟩

theorem trans_of_step {a : Act} (h : step a s = some t) : Trans s a t := by
  rw [step_eq_some] at h
  cases a with
  | sysDup q fd =>
    obtain ⟨hq, h⟩ := Option.ite_none_right_eq_some.mp h
    exact trans_sysDup hq (Option.some.inj h)
  | sysOpen q omode =>
    obtain ⟨hq, h⟩ := Option.ite_none_right_eq_some.mp h
    obtain rfl := Except.ok.inj (Option.some.inj h)
    exact trans_sysOpen hq
  | sysClose q fd =>
    obtain ⟨hq, h⟩ := Option.ite_none_right_eq_some.mp h
    obtain rfl := Except.ok.inj (Option.some.inj h)
    exact trans_sysClose hq
  | sysPipe q =>
    obtain ⟨hq, h⟩ := Option.ite_none_right_eq_some.mp h
    obtain rfl := Except.ok.inj (Option.some.inj h)
    exact trans_sysPipe hq
  | sysRead q fd n =>
    obtain ⟨hq, h⟩ := Option.ite_none_right_eq_some.mp h
    exact trans_sysRead hq (Option.some.inj h)
  | sysWrite q fd n =>
    obtain ⟨hq, h⟩ := Option.ite_none_right_eq_some.mp h
    exact trans_sysWrite hq (Option.some.inj h)
  | fork q np =>
    obtain ⟨⟨hq, hnp⟩, h⟩ := Option.ite_none_right_eq_some.mp h
    obtain rfl := Except.ok.inj (Option.some.inj h)
    exact .fork hq hnp
  | exit q =>
    obtain ⟨⟨hq, hinit⟩, h⟩ := Option.ite_none_right_eq_some.mp h
    obtain rfl := Except.ok.inj (Option.some.inj h)
    exact .exit hq hinit
  | wait q =>
    obtain ⟨hq, h⟩ := Option.ite_none_right_eq_some.mp h
    obtain rfl := Except.ok.inj (Option.some.inj h)
    exact .wait hq
  | kill q =>
    obtain rfl := Except.ok.inj (Option.some.inj h)
    exact .kill
  | fileclose q =>
    simp only [move] at h
    split at h
    · exact trans_fileclose ‹_› (Option.some.inj h)
    · cases h
  | pipeclose q =>
    simp only [move] at h
    split at h
    · exact trans_pipeclose ‹_› (Option.some.inj h)
    · cases h
  | pipealloc q =>
    simp only [move] at h
    split at h
    · obtain rfl := Except.ok.inj (Option.some.inj h)
      exact trans_pipealloc ‹_›
    · cases h
  | kalloc q r =>
    simp only [move] at h
    split at h
    · obtain ⟨hr, h⟩ := Option.ite_none_right_eq_some.mp h
      obtain rfl := Except.ok.inj (Option.some.inj h)
      exact trans_pipeRest ‹_› hr
    · cases h
  | piperead q =>
    simp only [move] at h
    split at h
    · obtain ⟨hawake, h⟩ := Option.ite_none_left_eq_some.mp h
      exact trans_piperead ‹_› (by simpa using hawake) (Option.some.inj h)
    · cases h
  | pipewrite q addr =>
    simp only [move] at h
    split at h
    · obtain ⟨hawake, h⟩ := Option.ite_none_left_eq_some.mp h
      exact trans_pipewrite ‹_› (by simpa using hawake) (Option.some.inj h)
    · cases h
  | forkNext q =>
    simp only [move] at h
    split at h
    · exact trans_forkNext ‹_› (Option.some.inj h)
    · cases h
  | exitNext q =>
    simp only [move] at h
    split at h
    · obtain rfl := Except.ok.inj (Option.some.inj h)
      exact trans_exitNext ‹_›
    · cases h

/-! ## A run -/

/-- The slot of the second process. -/
def second : Slot := ⟨1, by decide⟩

/-- The first process makes a pipe in the page 4096, with the descriptors 0 and 1, and forks. -/
def pipeline : List Act :=
  [.sysPipe initproc, .pipealloc initproc, .kalloc initproc (some 4096), .fork initproc second] ++
    List.replicate 17 (.forkNext initproc)

/-- The state after the pipeline and the moves `as`. -/
def piped (as : List Act) : Kernel := (replay step (pipeline ++ as) boot).getD boot

theorem run_piped (as : List Act) (h : (replay step (pipeline ++ as) boot).isSome) :
    Run step boot (moves step (pipeline ++ as) boot) (piped as) := run_of_isSome h

theorem reach_piped (as : List Act) (h : (replay step (pipeline ++ as) boot).isSome) :
    Reach (piped as) := ⟨boot, _, rfl, run_piped as h, fun _ _ ↦ trivial⟩

end CS537.Files
