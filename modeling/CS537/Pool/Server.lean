import CS537.Lib.Transition
import Mathlib.Algebra.GroupWithZero.Nat
import Mathlib.Data.Fintype.Basic
import Mathlib.Logic.Function.Basic

/-!
# The thread pool of the web server

`p4a/server.c`: the master accepts connections and puts their descriptors into a bounded buffer,
the workers take them out and handle them. A move is one critical section under the mutex `m`, from
`Pthread_mutex_lock` or the return of `Pthread_cond_wait` to `Pthread_mutex_unlock` or the next
`Pthread_cond_wait`, or something a thread does without `m`.

A thread that has been signalled, or has woken up by itself, still has to take `m` again and to
repeat its test, so it is a state of its own beside waiting. The counters stay between `0` and
`numbuff`, so that integers serve for `int`.
-/

namespace CS537.Pool

open Function

variable {numthread : ℕ}

/-- Where a worker is. `start`: about to lock `m`. `wait`: in `Pthread_cond_wait(&fill, &m)`.
`woken`: signalled there, about to take `m` again. `handle connfd`: in `requestHandle` or
`Close`. -/
inductive Worker
  | start
  | wait
  | woken
  | handle (connfd : ℤ)
  deriving DecidableEq, Repr

/-- Where the master is. `accept`: about to accept a connection. `lock connfd`: it has accepted
`connfd` and is about to lock `m`. `wait`, `woken`: in `Pthread_cond_wait(&empty, &m)`, as for the
workers. -/
inductive Master
  | accept
  | lock (connfd : ℤ)
  | wait (connfd : ℤ)
  | woken (connfd : ℤ)
  deriving DecidableEq, Repr

/-- A pool of two workers numbers them `0` and `1`. -/
scoped instance neZeroTwo : NeZero 2 := ⟨by decide⟩

structure Server (numthread : ℕ) where
  buff : ℤ → ℤ
  count : ℤ
  writeBufferNo : ℤ
  readBufferNo : ℤ
  master : Master
  worker : Fin numthread → Worker

namespace Server

variable (s : Server numthread)

def setWorker (i : Fin numthread) (x : Worker) : Server numthread :=
  { s with worker := update s.worker i x }

def setMaster (x : Master) : Server numthread := { s with master := x }

/-- `Pthread_cond_signal(&empty)`: only the master waits there. -/
def signalEmpty : Server numthread :=
  match s.master with
  | .wait connfd => s.setMaster (.woken connfd)
  | _ => s

/-- `Pthread_cond_signal(&fill)` wakes the workers in `S`. -/
def signalFill (S : Finset (Fin numthread)) : Server numthread :=
  { s with worker := fun i ↦ if i ∈ S then .woken else s.worker i }

/-- `S` may be the set of workers that a signal on `fill` wakes: at least one, if any waits. -/
def Wakes (S : Finset (Fin numthread)) : Prop :=
  (∀ i ∈ S, s.worker i = .wait) ∧ ((∃ i, s.worker i = .wait) → S.Nonempty)

instance (S : Finset (Fin numthread)) : Decidable (s.Wakes S) :=
  inferInstanceAs (Decidable (_ ∧ _))

end Server

/-- The section of `workerthread` under `m`. -/
def workerSection (numbuff : ℤ) (i : Fin numthread) (s : Server numthread) : Server numthread :=
  if s.count = 0 then s.setWorker i .wait
  else
    let connfd := s.buff s.readBufferNo
    let s := { s with readBufferNo := s.readBufferNo + 1 }
    let s := { s with readBufferNo := s.readBufferNo.tmod numbuff }
    let s := s.signalEmpty
    let s := { s with count := s.count - 1 }
    s.setWorker i (.handle connfd)

/-- The section of the master's loop under `m`; `S` are the workers its signal wakes. -/
def masterSection (numbuff connfd : ℤ) (S : Finset (Fin numthread)) (s : Server numthread) :
    Server numthread :=
  if s.count = numbuff then s.setMaster (.wait connfd)
  else
    let s := { s with
      buff := update s.buff s.writeBufferNo connfd
      writeBufferNo := s.writeBufferNo + 1 }
    let s := { s with writeBufferNo := s.writeBufferNo.tmod numbuff }
    let s := { s with count := s.count + 1 }
    let s := s.signalFill S
    s.setMaster .accept

/-! ## The transition system -/

inductive Act (numthread : ℕ)
  /-- `Accept` returns the descriptor -/
  | accept (connfd : ℤ)
  | master (S : Finset (Fin numthread))
  | worker (i : Fin numthread)
  /-- `requestHandle` and `Close` are done -/
  | handled (i : Fin numthread)
  /-- a wait ends without a signal -/
  | spuriousFill (i : Fin numthread)
  | spuriousEmpty
  deriving DecidableEq

def step (numbuff : ℤ) (a : Act numthread) (s : Server numthread) : Option (Server numthread) :=
  match a with
  | .accept connfd =>
    match s.master with
    | .accept => some (s.setMaster (.lock connfd))
    | _ => none
  | .master S =>
    match s.master with
    | .lock connfd | .woken connfd =>
      if s.Wakes S then some (masterSection numbuff connfd S s) else none
    | _ => none
  | .worker i =>
    match s.worker i with
    | .start | .woken => some (workerSection numbuff i s)
    | _ => none
  | .handled i =>
    match s.worker i with
    | .handle _ => some (s.setWorker i .start)
    | _ => none
  | .spuriousFill i => if s.worker i = .wait then some (s.setWorker i .woken) else none
  | .spuriousEmpty =>
    match s.master with
    | .wait connfd => some (s.setMaster (.woken connfd))
    | _ => none

/-- All threads have been created. The buffer holds whatever `malloc` returned. -/
structure Started (s : Server numthread) : Prop where
  count : s.count = 0
  writeBufferNo : s.writeBufferNo = 0
  readBufferNo : s.readBufferNo = 0
  master : s.master = .accept
  worker : ∀ i, s.worker i = .start

/-! ## What a move does -/

/-- The master is in its section with `connfd`: it has not yet tested `count`, or is to test it
again. -/
def Master.Holds (x : Master) (connfd : ℤ) : Prop := x = .lock connfd ∨ x = .woken connfd

/-- The worker is about to test `count`. -/
def Worker.Tests (x : Worker) : Prop := x = .start ∨ x = .woken

/-- The master after a signal on `empty`. -/
def Master.signal : Master → Master
  | .wait connfd => .woken connfd
  | x => x

theorem Server.signalEmpty_eq (s : Server numthread) :
    s.signalEmpty = s.setMaster s.master.signal := by
  rcases s with ⟨buff, count, w, r, _ | _ | _ | _, worker⟩ <;> rfl

/-- The moves of the server. -/
inductive Trans (numbuff : ℤ) (s : Server numthread) : Act numthread → Server numthread → Prop
  | accept {connfd} (hm : s.master = .accept) :
      Trans numbuff s (.accept connfd) { s with master := .lock connfd }
  | full {connfd S} (hm : s.master.Holds connfd) (hfull : s.count = numbuff) :
      Trans numbuff s (.master S) { s with master := .wait connfd }
  | put {connfd S} (hm : s.master.Holds connfd) (hroom : s.count ≠ numbuff) (hS : s.Wakes S) :
      Trans numbuff s (.master S)
        { buff := update s.buff s.writeBufferNo connfd
          count := s.count + 1
          writeBufferNo := (s.writeBufferNo + 1).tmod numbuff
          readBufferNo := s.readBufferNo
          master := .accept
          worker := fun i ↦ if i ∈ S then .woken else s.worker i }
  | empty {i} (hi : (s.worker i).Tests) (hempty : s.count = 0) :
      Trans numbuff s (.worker i) { s with worker := update s.worker i .wait }
  | take {i} (hi : (s.worker i).Tests) (hfill : s.count ≠ 0) :
      Trans numbuff s (.worker i)
        { s with
          count := s.count - 1
          readBufferNo := (s.readBufferNo + 1).tmod numbuff
          master := s.master.signal
          worker := update s.worker i (.handle (s.buff s.readBufferNo)) }
  | handled {i connfd} (hi : s.worker i = .handle connfd) :
      Trans numbuff s (.handled i) { s with worker := update s.worker i .start }
  | spuriousFill {i} (hi : s.worker i = .wait) :
      Trans numbuff s (.spuriousFill i) { s with worker := update s.worker i .woken }
  | spuriousEmpty {connfd} (hm : s.master = .wait connfd) :
      Trans numbuff s .spuriousEmpty { s with master := .woken connfd }

variable {numbuff : ℤ} {s t : Server numthread} {a : Act numthread}

theorem trans_masterSection {connfd : ℤ} {S : Finset (Fin numthread)}
    (hm : s.master.Holds connfd) (hS : s.Wakes S) :
    Trans numbuff s (.master S) (masterSection numbuff connfd S s) := by
  rw [masterSection]
  split
  · exact .full hm ‹_›
  · exact .put hm ‹_› hS

theorem trans_workerSection {i : Fin numthread} (hi : (s.worker i).Tests) :
    Trans numbuff s (.worker i) (workerSection numbuff i s) := by
  rw [workerSection]
  split
  · exact .empty hi ‹_›
  · simp only [Server.signalEmpty_eq]
    exact .take hi ‹_›

theorem trans_of_step (h : step numbuff a s = some t) : Trans numbuff s a t := by
  cases a with
  | accept connfd =>
    rw [step] at h
    split at h
    · rw [← Option.some.inj h]
      exact .accept ‹_›
    · cases h
  | master S =>
    rw [step] at h
    split at h
    · obtain ⟨hS, ht⟩ := Option.ite_none_right_eq_some.mp h
      rw [← Option.some.inj ht]
      exact trans_masterSection (.inl ‹_›) hS
    · obtain ⟨hS, ht⟩ := Option.ite_none_right_eq_some.mp h
      rw [← Option.some.inj ht]
      exact trans_masterSection (.inr ‹_›) hS
    · cases h
  | worker i =>
    rw [step] at h
    split at h
    · rw [← Option.some.inj h]
      exact trans_workerSection (.inl ‹_›)
    · rw [← Option.some.inj h]
      exact trans_workerSection (.inr ‹_›)
    · cases h
  | handled i =>
    rw [step] at h
    split at h
    · rw [← Option.some.inj h]
      exact .handled ‹_›
    · cases h
  | spuriousFill i =>
    obtain ⟨hi, ht⟩ := Option.ite_none_right_eq_some.mp h
    rw [← Option.some.inj ht]
    exact .spuriousFill hi
  | spuriousEmpty =>
    rw [step] at h
    split at h
    · rw [← Option.some.inj h]
      exact .spuriousEmpty ‹_›
    · cases h

end CS537.Pool
