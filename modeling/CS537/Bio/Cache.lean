import Mathlib.Algebra.GroupWithZero.Nat
import Mathlib.Data.BitVec
import Mathlib.Data.Fintype.Basic
import Mathlib.Data.List.FinRange
import CS537.Lib.Links
import CS537.Lib.Transition

/-!
# The buffer cache

`p3/p3b/xv6/kernel/bio.c` and the queue of disk requests of `ide.c`, for any number of processes. A
move is one critical section, under `bcache.lock` or under `idelock`, with what the process does by
itself beside it: only the holder of a buffer looks at its data and at its flags `B_VALID` and
`B_DIRTY`, apart from the interrupt handler, for which the holder then waits.

The disk takes the data of a write when the request is started, and gives those of a read when it
interrupts. It may report an error then, which the driver does not pass on.
-/

namespace CS537.Bio

open Function Transition

/-- The 512 bytes of a sector. -/
abbrev Block := Fin 512 → BitVec 8

/-- `NBUF`. -/
def nbuf : ℕ := 10

/-- `NPROC`. -/
def nproc : ℕ := 64

instance : NeZero nbuf := ⟨by decide⟩

instance : NeZero nproc := ⟨by decide⟩

/-- An index of `bcache.buf`; it stands for the address `&bcache.buf[i]` too. -/
abbrev Bufno := Fin nbuf

/-- An index of `ptable.proc`. -/
abbrev Slot := Fin nproc

/-- What `prev` and `next` lead to: `&bcache.head` or a buffer. -/
inductive Node
  | head
  | buf (b : Bufno)
  deriving DecidableEq, Repr

/-- `struct buf` without its links. -/
structure Buf where
  busy : Bool
  valid : Bool
  dirty : Bool
  dev : BitVec 32
  sector : BitVec 32
  data : Block

/-- A block, by `dev` and `sector`. -/
abbrev Key := BitVec 32 × BitVec 32

/-- The drive and the sector that `idestart` sets: one bit of `dev` and 28 bits of `sector`. -/
def place (k : Key) : ℕ × ℕ := (k.1.toNat % 2, k.2.toNat % 2 ^ 28)

/-- The call in which `iderw` is. -/
inductive Call
  | bread (dev sector : BitVec 32)
  | bwrite
  deriving DecidableEq, Repr

/-- Where a process is. `user`: in none of the calls. `bget`: about to lock the cache there, or
asleep. `iderw`: about to lock the queue there. `wait`: in the loop of `iderw`, or asleep there. -/
inductive Pos
  | user
  | bget (dev sector : BitVec 32)
  | iderw (c : Call) (b : Bufno)
  | wait (c : Call) (b : Bufno)
  deriving DecidableEq, Repr

/-- `chan`: the buffer on which the process sleeps. `held`: the buffers that `bget` has found for
the process and that it has not released. -/
structure Proc where
  pos : Pos
  chan : Option Bufno
  held : List Bufno

structure Kernel where
  buf : Bufno → Buf
  next : Node → Node
  prev : Node → Node
  qnext : Bufno → Option Bufno
  idequeue : Option Bufno
  havedisk1 : Bool
  disk : ℕ × ℕ → Block
  proc : Slot → Proc

namespace Buf

/-- `(b->flags & (B_VALID|B_DIRTY)) == B_VALID`. -/
def Done (x : Buf) : Prop := x.valid = true ∧ x.dirty = false

instance (x : Buf) : Decidable x.Done := inferInstanceAs (Decidable (_ ∧ _))

def key (x : Buf) : Key := (x.dev, x.sector)

def place (x : Buf) : ℕ × ℕ := Bio.place x.key

end Buf

namespace Kernel

variable (s : Kernel)

def setBuf (b : Bufno) (x : Buf) : Kernel := { s with buf := update s.buf b x }

def setNext (x y : Node) : Kernel := { s with next := update s.next x y }

def setPrev (x y : Node) : Kernel := { s with prev := update s.prev x y }

def setQnext (b : Bufno) (x : Option Bufno) : Kernel := { s with qnext := update s.qnext b x }

def setProc (q : Slot) (P : Proc) : Kernel := { s with proc := update s.proc q P }

def wakeup (b : Bufno) : Kernel :=
  { s with
    proc := fun q ↦ { s.proc q with
      chan := if (s.proc q).chan = some b then none else (s.proc q).chan } }

/-- `b->next->prev = b->prev; b->prev->next = b->next`. -/
def unlink (b : Bufno) : Kernel :=
  let s := s.setPrev (s.next (.buf b)) (s.prev (.buf b))
  s.setNext (s.prev (.buf b)) (s.next (.buf b))

/-- The buffer becomes the first of the list. -/
def pushFront (b : Bufno) : Kernel :=
  let s := s.setNext (.buf b) (s.next .head)
  let s := s.setPrev (.buf b) .head
  let s := s.setPrev (s.next .head) (.buf b)
  s.setNext .head (.buf b)

end Kernel

section Fields

variable (s : Kernel)

@[simp] theorem setBuf_buf (b : Bufno) (x : Buf) : (s.setBuf b x).buf = update s.buf b x := rfl

@[simp] theorem setBuf_proc (b : Bufno) (x : Buf) : (s.setBuf b x).proc = s.proc := rfl

@[simp] theorem setProc_buf (q : Slot) (P : Proc) : (s.setProc q P).buf = s.buf := rfl

@[simp] theorem setProc_proc (q : Slot) (P : Proc) : (s.setProc q P).proc = update s.proc q P := rfl

@[simp] theorem wakeup_buf (b : Bufno) : (s.wakeup b).buf = s.buf := rfl

@[simp] theorem pushFront_buf (b : Bufno) : (s.pushFront b).buf = s.buf := rfl

end Fields

def binit (s : Kernel) : Kernel :=
  (List.finRange nbuf).foldl
    (fun s b ↦ (s.setBuf b { s.buf b with dev := -1 }).pushFront b)
    ((s.setPrev .head .head).setNext .head .head)

/-! ## `ide.c` -/

/-- A write goes to the disk; for a read there is nothing to do yet. -/
def idestart (b : Bufno) (s : Kernel) : Kernel :=
  if (s.buf b).dirty then { s with disk := update s.disk (s.buf b).place (s.buf b).data } else s

/-- The buffer after the interrupt handler has served its request: `data` is what the disk has, `ok`
tells whether `idewait` finds no error. -/
def served (ok : Bool) (data : Block) (x : Buf) : Buf :=
  { x with data := if x.dirty = false ∧ ok then data else x.data, valid := true, dirty := false }

/-- `b` is taken off the queue, and served. -/
def serve (ok : Bool) (b : Bufno) (s : Kernel) : Kernel :=
  let s := { s with idequeue := s.qnext b }
  (s.setBuf b (served ok (s.disk (s.buf b).place) (s.buf b))).wakeup b

def ideintr (ok : Bool) (s : Kernel) : Kernel :=
  match s.idequeue with
  | none => s
  | some b =>
    let s := serve ok b s
    match s.idequeue with
    | none => s
    | some c => idestart c s

/-- A round of the last loop of `iderw`. -/
def await (q : Slot) (c : Call) (b : Bufno) (s : Kernel) : Kernel :=
  if (s.buf b).Done then s.setProc q { s.proc q with pos := .user }
  else s.setProc q { s.proc q with pos := .wait c b, chan := some b }

/-- `b` is appended to the queue; `none` if the loop to its end does not end. -/
def enqueue (b : Bufno) (s : Kernel) : Option Kernel :=
  let s := s.setQnext b none
  match s.idequeue with
  | none => some { s with idequeue := some b }
  | some a => (Slist.last s.qnext nbuf a).map fun z ↦ s.setQnext z (some b)

/-- A loop over a list of buffers has not come to an end. -/
def endless : Except String Kernel := throw "loop"

def iderw (q : Slot) (c : Call) (b : Bufno) (s : Kernel) : Except String Kernel :=
  if (s.buf b).busy = false then throw "iderw: buf not busy"
  else if (s.buf b).Done then throw "iderw: nothing to do"
  else if (s.buf b).dev ≠ 0 ∧ s.havedisk1 = false then throw "iderw: ide disk 1 not present"
  else
    match enqueue b s with
    | none => endless
    | some s => pure (await q c b (if s.idequeue = some b then idestart b s else s))

section Fields

variable (q : Slot) (c : Call) (b : Bufno) (s : Kernel)

@[simp] theorem idestart_buf : (idestart b s).buf = s.buf := by rw [idestart]; split <;> rfl

@[simp] theorem idestart_next : (idestart b s).next = s.next := by rw [idestart]; split <;> rfl

@[simp] theorem idestart_prev : (idestart b s).prev = s.prev := by rw [idestart]; split <;> rfl

@[simp] theorem idestart_qnext : (idestart b s).qnext = s.qnext := by rw [idestart]; split <;> rfl

@[simp] theorem idestart_idequeue : (idestart b s).idequeue = s.idequeue := by
  rw [idestart]
  split <;> rfl

@[simp] theorem idestart_proc : (idestart b s).proc = s.proc := by rw [idestart]; split <;> rfl

/-- The process after a round of the loop. -/
def awaiting : Proc :=
  if (s.buf b).Done then { s.proc q with pos := .user }
  else { s.proc q with pos := .wait c b, chan := some b }

theorem await_eq : await q c b s = s.setProc q (awaiting q c b s) := by
  rw [await, awaiting]
  split <;> rfl

@[simp] theorem await_buf : (await q c b s).buf = s.buf := by rw [await_eq]; rfl

@[simp] theorem await_next : (await q c b s).next = s.next := by rw [await_eq]; rfl

@[simp] theorem await_prev : (await q c b s).prev = s.prev := by rw [await_eq]; rfl

@[simp] theorem await_qnext : (await q c b s).qnext = s.qnext := by rw [await_eq]; rfl

@[simp] theorem await_idequeue : (await q c b s).idequeue = s.idequeue := by rw [await_eq]; rfl

@[simp] theorem await_disk : (await q c b s).disk = s.disk := by rw [await_eq]; rfl

@[simp] theorem await_proc :
    (await q c b s).proc = update s.proc q (awaiting q c b s) := by rw [await_eq]; rfl

theorem enqueue_same {b : Bufno} {s s' : Kernel} (h : enqueue b s = some s') :
    s'.next = s.next ∧ s'.prev = s.prev ∧ s'.buf = s.buf ∧ s'.proc = s.proc ∧ s'.disk = s.disk := by
  simp only [enqueue] at h
  split at h
  · obtain rfl := Option.some.inj h
    exact ⟨rfl, rfl, rfl, rfl, rfl⟩
  · obtain ⟨z, -, rfl⟩ := Option.map_eq_some_iff.mp h
    exact ⟨rfl, rfl, rfl, rfl, rfl⟩

/-- The disk may have been started on the request that has been put in. -/
theorem start_same {b : Bufno} {s s' s₁ : Kernel} (h : enqueue b s = some s')
    (hs₁ : (if s'.idequeue = some b then idestart b s' else s') = s₁) :
    s₁.next = s.next ∧ s₁.prev = s.prev ∧ s₁.buf = s.buf ∧ s₁.proc = s.proc ∧
      s₁.qnext = s'.qnext ∧ s₁.idequeue = s'.idequeue := by
  obtain ⟨hnext, hprev, hbuf, hproc, -⟩ := enqueue_same h
  rw [← hs₁, ← hnext, ← hprev, ← hbuf, ← hproc]
  split
  · exact ⟨idestart_next .., idestart_prev .., idestart_buf .., idestart_proc ..,
      idestart_qnext .., idestart_idequeue ..⟩
  · exact ⟨rfl, rfl, rfl, rfl, rfl, rfl⟩

theorem ideintr_of_none {s : Kernel} (ok : Bool) (h : s.idequeue = none) : ideintr ok s = s := by
  rw [ideintr, h]

/-- Apart from the disk, only `serve` changes something. -/
theorem ideintr_same {s : Kernel} (ok : Bool) {b : Bufno} (h : s.idequeue = some b) :
    (ideintr ok s).buf = (serve ok b s).buf ∧ (ideintr ok s).proc = (serve ok b s).proc ∧
      (ideintr ok s).next = s.next ∧ (ideintr ok s).prev = s.prev ∧
      (ideintr ok s).qnext = s.qnext ∧ (ideintr ok s).idequeue = s.qnext b := by
  simp only [ideintr, h]
  split
  · exact ⟨rfl, rfl, rfl, rfl, rfl, rfl⟩
  · rw [idestart_buf, idestart_proc, idestart_next, idestart_prev, idestart_qnext,
      idestart_idequeue]
    exact ⟨rfl, rfl, rfl, rfl, rfl, rfl⟩

end Fields

/-! ## `bio.c` -/

def Node.sat (p : Bufno → Bool) : Node → Bool
  | .head => false
  | .buf b => p b

/-- The search of `bget` for the block. -/
def findBlock (dev sector : BitVec 32) (s : Kernel) : Option (Option Node) :=
  Dlist.walk s.next .head (Node.sat fun b ↦ (s.buf b).dev = dev ∧ (s.buf b).sector = sector)
    (nbuf + 1) (s.next .head)

/-- The search of `bget` for a buffer that is not in use, from the end of the list on. -/
def findFree (s : Kernel) : Option (Option Node) :=
  Dlist.walk s.prev .head (Node.sat fun b ↦ (s.buf b).busy = false) (nbuf + 1) (s.prev .head)

/-- The rest of `bread` after `bget` has returned `b`. -/
def got (q : Slot) (dev sector : BitVec 32) (b : Bufno) (s : Kernel) : Kernel :=
  s.setProc q { s.proc q with
    pos := if (s.buf b).valid then .user else .iderw (.bread dev sector) b
    held := b :: (s.proc q).held }

/-- A section of `bget`, from the lock or the return of `sleep`, with the rest of `bread`. -/
def bget (q : Slot) (dev sector : BitVec 32) (s : Kernel) : Except String Kernel :=
  match findBlock dev sector s with
  | some (some (.buf b)) =>
    if (s.buf b).busy = false then
      pure (got q dev sector b (s.setBuf b { s.buf b with busy := true }))
    else pure (s.setProc q { s.proc q with chan := some b })
  | some none =>
    match findFree s with
    | some (some (.buf b)) =>
      pure (got q dev sector b
        (s.setBuf b ⟨true, false, false, dev, sector, (s.buf b).data⟩))
    | some none => throw "bget: no buffers"
    | _ => endless
  | _ => endless

/-- `bwrite` up to `iderw`. -/
def bwrite (q : Slot) (b : Bufno) (s : Kernel) : Except String Kernel :=
  if (s.buf b).busy = false then throw "bwrite"
  else pure ((s.setBuf b { s.buf b with dirty := true }).setProc q
    { s.proc q with pos := .iderw .bwrite b })

/-- The section of `brelse`. -/
def release (q : Slot) (b : Bufno) (s : Kernel) : Kernel :=
  let s := (s.unlink b).pushFront b
  let s := (s.setBuf b { s.buf b with busy := false }).wakeup b
  s.setProc q { s.proc q with held := (s.proc q).held.erase b }

def brelse (q : Slot) (b : Bufno) (s : Kernel) : Except String Kernel :=
  if (s.buf b).busy = false then throw "brelse" else pure (release q b s)

/-! ## Moves -/

inductive Act
  | bread (q : Slot) (dev sector : BitVec 32)
  | bget (q : Slot)
  | iderw (q : Slot)
  /-- the loop of `iderw` goes on -/
  | resume (q : Slot)
  | ideintr (ok : Bool)
  /-- the process stores in the data of a buffer that it holds -/
  | store (q : Slot) (b : Bufno) (data : Block)
  | bwrite (q : Slot) (b : Bufno)
  | brelse (q : Slot) (b : Bufno)
  /-- `kill` wakes the process -/
  | kill (q : Slot)

/-- The process may use the buffer. -/
def Kernel.Uses (s : Kernel) (q : Slot) (b : Bufno) : Prop :=
  (s.proc q).pos = .user ∧ b ∈ (s.proc q).held

instance (s : Kernel) (q : Slot) (b : Bufno) : Decidable (s.Uses q b) :=
  inferInstanceAs (Decidable (_ ∧ _))

/-- The move under the label, when it is enabled. -/
def move (a : Act) (s : Kernel) : Option (Except String Kernel) :=
  match a with
  | .bread q dev sector =>
    if (s.proc q).pos = .user then
      some (pure (s.setProc q { s.proc q with pos := .bget dev sector }))
    else none
  | .bget q =>
    match (s.proc q).pos, (s.proc q).chan with
    | .bget dev sector, none => some (bget q dev sector s)
    | _, _ => none
  | .iderw q =>
    match (s.proc q).pos with
    | .iderw c b => some (iderw q c b s)
    | _ => none
  | .resume q =>
    match (s.proc q).pos, (s.proc q).chan with
    | .wait c b, none => some (pure (await q c b s))
    | _, _ => none
  | .ideintr ok => some (pure (ideintr ok s))
  | .store q b data =>
    if s.Uses q b then some (pure (s.setBuf b { s.buf b with data := data })) else none
  | .bwrite q b => if s.Uses q b then some (bwrite q b s) else none
  | .brelse q b => if s.Uses q b then some (brelse q b s) else none
  | .kill q => some (pure (s.setProc q { s.proc q with chan := none }))

def step (a : Act) (s : Kernel) : Option Kernel := (move a s).bind Except.toOption

/-- What `ideinit` finds: the contents of the disks, and whether there is a second one. -/
def boot (disk : ℕ × ℕ → Block) (havedisk1 : Bool) : Kernel :=
  binit
    { buf := fun _ ↦ ⟨false, false, false, 0, 0, fun _ ↦ 0⟩
      next := fun _ ↦ .head
      prev := fun _ ↦ .head
      qnext := fun _ ↦ none
      idequeue := none
      havedisk1 := havedisk1
      disk := disk
      proc := fun _ ↦ ⟨.user, none, []⟩ }

/-- Reachability from boot. -/
def Reach (s : Kernel) : Prop :=
  Reachable step (fun s₀ ↦ ∃ disk havedisk1, s₀ = boot disk havedisk1) s

/-! ## What a move does -/

/-- The moves of the buffer cache. -/
inductive Trans (s : Kernel) : Act → Kernel → Prop
  | bread {q dev sector} (hq : (s.proc q).pos = .user) :
      Trans s (.bread q dev sector) (s.setProc q { s.proc q with pos := .bget dev sector })
  | hit {q dev sector b} (hq : (s.proc q).pos = .bget dev sector) (hchan : (s.proc q).chan = none)
      (hfind : findBlock dev sector s = some (some (.buf b))) (hfree : (s.buf b).busy = false) :
      Trans s (.bget q) (got q dev sector b (s.setBuf b { s.buf b with busy := true }))
  | sleep {q dev sector b} (hq : (s.proc q).pos = .bget dev sector)
      (hchan : (s.proc q).chan = none) (hbusy : (s.buf b).busy = true) :
      Trans s (.bget q) (s.setProc q { s.proc q with chan := some b })
  | miss {q dev sector b} (hq : (s.proc q).pos = .bget dev sector) (hchan : (s.proc q).chan = none)
      (hfind : findBlock dev sector s = some none) (hfree : findFree s = some (some (.buf b))) :
      Trans s (.bget q)
        (got q dev sector b (s.setBuf b ⟨true, false, false, dev, sector, (s.buf b).data⟩))
  | iderw {q c b s'} (hq : (s.proc q).pos = .iderw c b) (hbusy : (s.buf b).busy = true)
      (hdone : ¬(s.buf b).Done) (henqueue : enqueue b s = some s') :
      Trans s (.iderw q) (await q c b (if s'.idequeue = some b then idestart b s' else s'))
  | resume {q c b} (hq : (s.proc q).pos = .wait c b) (hchan : (s.proc q).chan = none) :
      Trans s (.resume q) (await q c b s)
  | ideintr (ok) : Trans s (.ideintr ok) (ideintr ok s)
  | store {q b data} (hq : s.Uses q b) :
      Trans s (.store q b data) (s.setBuf b { s.buf b with data := data })
  | bwrite {q b} (hq : s.Uses q b) (hbusy : (s.buf b).busy = true) :
      Trans s (.bwrite q b) ((s.setBuf b { s.buf b with dirty := true }).setProc q
        { s.proc q with pos := .iderw .bwrite b })
  | brelse {q b} (hq : s.Uses q b) (hbusy : (s.buf b).busy = true) :
      Trans s (.brelse q b) (release q b s)
  | kill {q} : Trans s (.kill q) (s.setProc q { s.proc q with chan := none })

variable {s t : Kernel}

theorem step_eq_some {a : Act} : step a s = some t ↔ move a s = some (.ok t) := by
  rw [step, Option.bind_eq_some_iff]
  constructor
  · rintro ⟨r, hr, ht⟩
    cases r with
    | error e => cases ht
    | ok u => rw [hr, ← Option.some.inj ht]
  · exact fun h ↦ ⟨_, h, rfl⟩

theorem trans_bget {q : Slot} {dev sector : BitVec 32} (hq : (s.proc q).pos = .bget dev sector)
    (hchan : (s.proc q).chan = none) (h : bget q dev sector s = .ok t) : Trans s (.bget q) t := by
  rw [bget] at h
  split at h
  · next b hfind =>
    split at h
    · obtain rfl := Except.ok.inj h
      exact .hit hq hchan hfind ‹_›
    · obtain rfl := Except.ok.inj h
      exact .sleep hq hchan (Bool.eq_true_of_not_eq_false ‹_›)
  · next hfind =>
    split at h
    · obtain rfl := Except.ok.inj h
      exact .miss hq hchan hfind ‹_›
    · cases h
    · cases h
  · cases h

theorem trans_iderw {q : Slot} {c : Call} {b : Bufno} (hq : (s.proc q).pos = .iderw c b)
    (h : iderw q c b s = .ok t) : Trans s (.iderw q) t := by
  rw [iderw] at h
  split at h
  · cases h
  split at h
  · cases h
  split at h
  · cases h
  split at h
  · cases h
  · obtain rfl := Except.ok.inj h
    exact .iderw hq (Bool.eq_true_of_not_eq_false ‹_›) ‹_› ‹_›

theorem trans_of_step {a : Act} (h : step a s = some t) : Trans s a t := by
  rw [step_eq_some] at h
  cases a with
  | bread q dev sector =>
    obtain ⟨hq, h⟩ := Option.ite_none_right_eq_some.mp h
    obtain rfl := Except.ok.inj (Option.some.inj h)
    exact .bread hq
  | bget q =>
    simp only [move] at h
    split at h
    · exact trans_bget ‹_› ‹_› (Option.some.inj h)
    · cases h
  | iderw q =>
    simp only [move] at h
    split at h
    · exact trans_iderw ‹_› (Option.some.inj h)
    · cases h
  | resume q =>
    simp only [move] at h
    split at h
    · obtain rfl := Except.ok.inj (Option.some.inj h)
      exact .resume ‹_› ‹_›
    · cases h
  | ideintr ok =>
    obtain rfl := Except.ok.inj (Option.some.inj h)
    exact .ideintr ok
  | store q b data =>
    obtain ⟨hq, h⟩ := Option.ite_none_right_eq_some.mp h
    obtain rfl := Except.ok.inj (Option.some.inj h)
    exact .store hq
  | bwrite q b =>
    obtain ⟨hq, h⟩ := Option.ite_none_right_eq_some.mp h
    rw [Option.some_inj, bwrite] at h
    split at h
    · cases h
    · obtain rfl := Except.ok.inj h
      exact .bwrite hq (Bool.eq_true_of_not_eq_false ‹_›)
  | brelse q b =>
    obtain ⟨hq, h⟩ := Option.ite_none_right_eq_some.mp h
    rw [Option.some_inj, brelse] at h
    split at h
    · cases h
    · obtain rfl := Except.ok.inj h
      exact .brelse hq (Bool.eq_true_of_not_eq_false ‹_›)
  | kill q =>
    obtain rfl := Except.ok.inj (Option.some.inj h)
    exact .kill

end CS537.Bio
