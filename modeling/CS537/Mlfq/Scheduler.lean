import CS537.Mlfq.Table

/-!
# The layer loop of `scheduler`

The two nested loops of `scheduler`, cut into single iterations: one test of the loop conditions
and one pass through the body of the inner loop. An iteration either moves the loop variables,
or finds a process to dispatch, or falls off the end of the layer loop.
-/

open Wrapping

namespace CS537.Mlfq

/-! ## One iteration -/

def highestFrom (ninlevel : ℤ → ℤ) : ℕ → ℤ → ℤ
  | 0, h => h
  | n + 1, h => if ninlevel h = 0 then highestFrom ninlevel n (h + 1) else h

/-- The smallest level with a nonzero counter, and the lowest level when there is none. -/
def highestlevel (ninlevel : ℤ → ℤ) : ℤ := highestFrom ninlevel (nlayer - 1) 0

inductive Iter
  | next (ii : ℤ) (p : ℕ)
  | dispatch (q : Slot)
  | release
  deriving DecidableEq, Repr

/-- One iteration of the nested loops with the loop variables at `ii` and `p`. -/
def iterate (proc : Slot → Proc) (ninlevel : ℤ → ℤ) (ii : ℤ) (p : ℕ) : Iter :=
  if ii < nlayer then
    if hp : p < nproc then
      if (proc ⟨p, hp⟩).state ≠ .runnable then .next ii (p + 1)
      else if ii ≠ highestlevel ninlevel then
        -- `ii = highestlevel - 1; break`, and the layer loop goes on with `++ii`
        .next (highestlevel ninlevel - 1 + 1) 0
      else if (proc ⟨p, hp⟩).level ≠ ii then .next ii (p + 1)
      else .dispatch ⟨p, hp⟩
    else .next (ii + 1) 0
  else .release

variable {ncpu : ℕ}

/-! What uses the slices is given for any table of them; that of the kernel is `mlpqTimeticks`. -/

namespace Cumulative

variable (slice : ℤ → ℕ)

/-- From `proc = p` to `swtch`: the tick is charged, and a process whose slice is used up is
moved one level down, before it runs. While the slice lasts, `p--` makes the loop come back to
the same process. The remainder is compared with 0 only, so its sign does not matter. -/
def dispatch (c : Fin ncpu) (q : Slot) (ii : ℤ) (s : Kernel ncpu) : Kernel ncpu :=
  let p := s.proc q
  let tt := toInt32 (p.timeticks p.level + 1)
  let p' := { p with
    state := .running
    timeticks := Function.update p.timeticks p.level tt }
  if tt % slice p.level ≠ 0 then
    (s.setProc q p').setCpu c (.running q ii q)
  else if p.level ≠ nlayer - 1 then
    (((s.addLevel p.level (-1)).setProc q { p' with level := p.level + 1 }).addLevel
      (p.level + 1) 1).setCpu c (.running q ii (q + 1))
  else
    (s.setProc q p').setCpu c (.running q ii (q + 1))

/-- One iteration of the CPU's layer loop; at its end `ptable.lock` is released. -/
def schedulerStep (c : Fin ncpu) (ii : ℤ) (p : ℕ) (s : Kernel ncpu) : Kernel ncpu :=
  match iterate s.proc s.ninlevel ii p with
  | .next ii' p' => s.setCpu c (.scan ii' p')
  | .dispatch q => dispatch slice c q ii s
  | .release => (s.setCpu c .idle).setLock none

end Cumulative

def dispatch (c : Fin ncpu) (q : Slot) (ii : ℤ) (s : Kernel ncpu) : Kernel ncpu :=
  Cumulative.dispatch mlpqTimeticks c q ii s

def schedulerStep (c : Fin ncpu) (ii : ℤ) (p : ℕ) (s : Kernel ncpu) : Kernel ncpu :=
  Cumulative.schedulerStep mlpqTimeticks c ii p s

theorem schedulerStep_eq (c : Fin ncpu) (ii : ℤ) (p : ℕ) (s : Kernel ncpu) :
    schedulerStep c ii p s =
      match iterate s.proc s.ninlevel ii p with
      | .next ii' p' => s.setCpu c (.scan ii' p')
      | .dispatch q => dispatch c q ii s
      | .release => (s.setCpu c .idle).setLock none := rfl

/-- `sched`: back into the layer loop of the CPU's scheduler, still holding `ptable.lock`. -/
def sched (c : Fin ncpu) (s : Kernel ncpu) : Kernel ncpu :=
  match s.cpu c with
  | .running _ ii p => (s.setCpu c (.scan ii p)).setLock (some c)
  | _ => s

end CS537.Mlfq
