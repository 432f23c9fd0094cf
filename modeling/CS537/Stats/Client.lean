import CS537.Lib.Transition
import Mathlib.Algebra.GroupWithZero.Nat
import Mathlib.Data.Fin.Basic
import Mathlib.Logic.Function.Basic

/-!
# The clients of a statistics segment

`p3/p3a/stats_client.c` from where the signal handler is installed, with `stats_init` and
`stats_unlink` of `stats.c`, for any number of clients of one segment. A client moves from one
access to the shared memory or the semaphore to the next; SIGINT comes at any time and is blocked in
its own handler. The handler does not return.

The contents of a buffer behind its valid bit are left out, and so are the errors of system calls.
-/

namespace CS537.Stats

open Function

/-- `NUMBER_OF_BUFFERS`. -/
def numberOfBuffers : ℕ := 16

instance : NeZero numberOfBuffers := ⟨by decide⟩

abbrev Buffno := Fin numberOfBuffers

/-- Two clients are numbered `0` and `1`. -/
scoped instance neZeroTwo : NeZero 2 := ⟨by decide⟩

/-- Where a client is. `wait` to `publish`: in `stats_init`; `wait`, `loop` and `unlinkWait` are at
a `sem_wait`. `loop` and `update`: in the loop of `main`, outside and inside its critical section.
`returned`: `stats_init` has returned NULL. `unlink` to `close`: in `exit_handler`. -/
inductive Pc
  | start
  | wait (buffno : Buffno)
  | test (buffno : Buffno)
  | set (buffno : Buffno)
  | post (buffno : Buffno) (found : Bool)
  | publish (buffno : Buffno)
  | loop
  | update
  | returned
  | unlink
  | unlinkWait
  | clear
  | unlinkPost
  | close
  | exited (status : ℕ)
  | crashed
  deriving DecidableEq

/-- The client holds the semaphore here. -/
def Pc.InSection : Pc → Bool
  | .test _ | .set _ | .post _ _ | .update | .clear | .unlinkPost => true
  | _ => false

/-- SIGINT can be delivered here. -/
def Pc.Interruptible : Pc → Bool
  | .unlink | .unlinkWait | .clear | .unlinkPost | .close | .exited _ | .crashed => false
  | _ => true

/-- `validbitaddr` is given by the number of the buffer, none is NULL. `claimed` is no variable of
the program: the buffer that the client has marked in use and has not marked free again. -/
structure Client where
  pc : Pc
  validbitaddr : Option Buffno
  claimed : Option Buffno
  deriving DecidableEq

/-- The semaphore, the valid bits and the clients. -/
structure State (C : Type) where
  mutex : ℕ
  valid : Buffno → Bool
  client : C → Client

variable {C : Type} [DecidableEq C]

namespace State

variable (s : State C)

def put (c : C) (x : Client) : State C := { s with client := Function.update s.client c x }

def goto (c : C) (pc : Pc) : State C := s.put c { s.client c with pc := pc }

def semWait : State C := { s with mutex := s.mutex - 1 }

def semPost : State C := { s with mutex := s.mutex + 1 }

/-- `*validbitaddr = …`. -/
def mark (b : Buffno) (v : Bool) : State C := { s with valid := Function.update s.valid b v }

end State

theorem put_client_self (s : State C) (c : C) (x : Client) : (s.put c x).client c = x :=
  update_self ..

theorem put_client_of_ne (s : State C) (x : Client) {c c' : C} (h : c' ≠ c) :
    (s.put c x).client c' = s.client c' := update_of_ne h ..

/-- The test of the loop of `stats_init`. -/
def scan (buffno : ℕ) : Pc :=
  if h : buffno < numberOfBuffers then .wait ⟨buffno, h⟩ else .returned

/-- The next access of a client. -/
def run (c : C) (s : State C) : Option (State C) :=
  let x := s.client c
  match x.pc with
  | .start => some (s.goto c (scan 0))
  | .wait b => if 0 < s.mutex then some (s.semWait.goto c (.test b)) else none
  | .test b => some (s.goto c (if s.valid b then .post b false else .set b))
  | .set b => some ((s.mark b true).put c { x with pc := .post b true, claimed := some b })
  | .post b found => some (s.semPost.goto c (if found then .publish b else scan (b + 1)))
  | .publish b => some (s.put c { x with pc := .loop, validbitaddr := some b })
  | .loop => if 0 < s.mutex then some (s.semWait.goto c .update) else none
  | .update => some (s.semPost.goto c .loop)
  | .returned => some (s.goto c (.exited 1))
  | .unlink =>
    match x.validbitaddr with
    | none => some (s.goto c .crashed)
    | some b => some (s.goto c (if s.valid b then .unlinkWait else .exited 1))
  | .unlinkWait => if 0 < s.mutex then some (s.semWait.goto c .clear) else none
  | .clear =>
    match x.validbitaddr with
    | none => some (s.goto c .crashed)
    | some b => some ((s.mark b false).put c { x with pc := .unlinkPost, claimed := none })
  | .unlinkPost => some (s.semPost.goto c .close)
  | .close => some (s.goto c (.exited 0))
  | .exited _ | .crashed => none

/-- A move of a client, SIGINT for a client, or something that does not concern the clients. -/
inductive Act (C : Type)
  | run (c : C)
  | sigint (c : C)
  | other
  deriving DecidableEq

def step (a : Act C) (s : State C) : Option (State C) :=
  match a with
  | .run c => run c s
  | .sigint c => if (s.client c).pc.Interruptible then some (s.goto c .unlink) else none
  | .other => some s

/-- The server has cleared the segment, the semaphore is available, and no client has got to
`stats_init`. -/
def start (C : Type) : State C := ⟨1, fun _ ↦ false, fun _ ↦ ⟨.start, none, none⟩⟩

/-- The moves with their guards. -/
inductive Trans (s : State C) : Act C → State C → Prop
  | enter {c : C} (hpc : (s.client c).pc = .start) : Trans s (.run c) (s.goto c (scan 0))
  | wait {c : C} {b : Buffno} (hpc : (s.client c).pc = .wait b) (hmutex : 0 < s.mutex) :
    Trans s (.run c) (s.semWait.goto c (.test b))
  | used {c : C} {b : Buffno} (hpc : (s.client c).pc = .test b) (hb : s.valid b = true) :
    Trans s (.run c) (s.goto c (.post b false))
  | free {c : C} {b : Buffno} (hpc : (s.client c).pc = .test b) (hb : s.valid b = false) :
    Trans s (.run c) (s.goto c (.set b))
  | set {c : C} {b : Buffno} (hpc : (s.client c).pc = .set b) :
    Trans s (.run c) ((s.mark b true).put c
      { s.client c with pc := .post b true, claimed := some b })
  | found {c : C} {b : Buffno} (hpc : (s.client c).pc = .post b true) :
    Trans s (.run c) (s.semPost.goto c (.publish b))
  | next {c : C} {b : Buffno} (hpc : (s.client c).pc = .post b false) :
    Trans s (.run c) (s.semPost.goto c (scan (b + 1)))
  | publish {c : C} {b : Buffno} (hpc : (s.client c).pc = .publish b) :
    Trans s (.run c) (s.put c { s.client c with pc := .loop, validbitaddr := some b })
  | loop {c : C} (hpc : (s.client c).pc = .loop) (hmutex : 0 < s.mutex) :
    Trans s (.run c) (s.semWait.goto c .update)
  | update {c : C} (hpc : (s.client c).pc = .update) : Trans s (.run c) (s.semPost.goto c .loop)
  | returned {c : C} (hpc : (s.client c).pc = .returned) :
    Trans s (.run c) (s.goto c (.exited 1))
  | null {c : C} (hpc : (s.client c).pc = .unlink ∨ (s.client c).pc = .clear)
    (haddr : (s.client c).validbitaddr = none) : Trans s (.run c) (s.goto c .crashed)
  | unlink {c : C} {b : Buffno} (hpc : (s.client c).pc = .unlink)
    (haddr : (s.client c).validbitaddr = some b) (hb : s.valid b = true) :
    Trans s (.run c) (s.goto c .unlinkWait)
  | notLinked {c : C} {b : Buffno} (hpc : (s.client c).pc = .unlink)
    (haddr : (s.client c).validbitaddr = some b) (hb : s.valid b = false) :
    Trans s (.run c) (s.goto c (.exited 1))
  | unlinkWait {c : C} (hpc : (s.client c).pc = .unlinkWait) (hmutex : 0 < s.mutex) :
    Trans s (.run c) (s.semWait.goto c .clear)
  | clear {c : C} {b : Buffno} (hpc : (s.client c).pc = .clear)
    (haddr : (s.client c).validbitaddr = some b) :
    Trans s (.run c) ((s.mark b false).put c
      { s.client c with pc := .unlinkPost, claimed := none })
  | unlinkPost {c : C} (hpc : (s.client c).pc = .unlinkPost) :
    Trans s (.run c) (s.semPost.goto c .close)
  | close {c : C} (hpc : (s.client c).pc = .close) : Trans s (.run c) (s.goto c (.exited 0))
  | sigint {c : C} (hpc : (s.client c).pc.Interruptible = true) :
    Trans s (.sigint c) (s.goto c .unlink)
  | other : Trans s .other s

theorem trans_of_run {s t : State C} {c : C} (h : run c s = some t) : Trans s (.run c) t := by
  rw [run] at h
  split at h
  case h_1 hpc => exact Option.some.inj h ▸ .enter hpc
  case h_2 b hpc =>
    obtain ⟨hmutex, ht⟩ := Option.ite_none_right_eq_some.mp h
    exact Option.some.inj ht ▸ .wait hpc hmutex
  case h_3 b hpc =>
    rw [← Option.some.inj h]
    cases hb : s.valid b with
    | true => exact .used hpc hb
    | false => exact .free hpc hb
  case h_4 b hpc => exact Option.some.inj h ▸ .set hpc
  case h_5 b found hpc =>
    rw [← Option.some.inj h]
    cases found with
    | true => exact .found hpc
    | false => exact .next hpc
  case h_6 b hpc => exact Option.some.inj h ▸ .publish hpc
  case h_7 hpc =>
    obtain ⟨hmutex, ht⟩ := Option.ite_none_right_eq_some.mp h
    exact Option.some.inj ht ▸ .loop hpc hmutex
  case h_8 hpc => exact Option.some.inj h ▸ .update hpc
  case h_9 hpc => exact Option.some.inj h ▸ .returned hpc
  case h_10 hpc =>
    split at h
    case h_1 haddr => exact Option.some.inj h ▸ .null (.inl hpc) haddr
    case h_2 b haddr =>
      rw [← Option.some.inj h]
      cases hb : s.valid b with
      | true => exact .unlink hpc haddr hb
      | false => exact .notLinked hpc haddr hb
  case h_11 hpc =>
    obtain ⟨hmutex, ht⟩ := Option.ite_none_right_eq_some.mp h
    exact Option.some.inj ht ▸ .unlinkWait hpc hmutex
  case h_12 hpc =>
    split at h
    case h_1 haddr => exact Option.some.inj h ▸ .null (.inr hpc) haddr
    case h_2 b haddr => exact Option.some.inj h ▸ .clear hpc haddr
  case h_13 hpc => exact Option.some.inj h ▸ .unlinkPost hpc
  case h_14 hpc => exact Option.some.inj h ▸ .close hpc
  case h_15 hpc => cases h
  case h_16 hpc => cases h

theorem trans_of_step {s t : State C} {a : Act C} (h : step a s = some t) : Trans s a t := by
  cases a with
  | run c => exact trans_of_run h
  | sigint c =>
    obtain ⟨hpc, ht⟩ := Option.ite_none_right_eq_some.mp h
    exact Option.some.inj ht ▸ .sigint hpc
  | other => exact Option.some.inj h ▸ .other

/-- A client moves by its own moves and by its signals. -/
theorem client_of_step {s t : State C} {a : Act C} {c : C} (hstep : step a s = some t)
    (hrun : a ≠ .run c) (hsigint : a ≠ .sigint c) : t.client c = s.client c := by
  cases trans_of_step hstep with
  | other => rfl
  | sigint hpc => exact put_client_of_ne _ _ fun h ↦ hsigint (h ▸ rfl)
  | _ => exact put_client_of_ne _ _ fun h ↦ hrun (h ▸ rfl)

end CS537.Stats
