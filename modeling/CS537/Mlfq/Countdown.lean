import CS537.Mlfq.Slices

/-!
# The count-down scheduler

`p2b/xv6/xv6_with_mlpq/kernel/proc.c`, the kernel before `getpinfo`. A process has one counter
there, which is loaded with the slice of its level and counts the dispatches down to 0. Apart from
that the two kernels have the same code, so the older one is given by what it does with its
counters, beside the functions of the newer one for the rest of the table. Like those it is given
for any table of slices.
-/

namespace CS537.Mlfq

open Function Transition

variable {ncpu : ℕ} (slice : ℤ → ℕ)

/-- The state of the older kernel. The table of the newer kernel stands for everything but the
ticks; its own counters stay 0. -/
structure Countdown (ncpu : ℕ) where
  kernel : Kernel ncpu
  timeticks : Slot → ℤ
  lastTicks : Slot → ℤ

namespace Countdown

/-- From `proc = p` to `swtch`: a slice that is used up is followed by a slice of the next level. -/
def dispatch (c : Fin ncpu) (i : Slot) (ii : ℤ) (s : Countdown ncpu) : Countdown ncpu :=
  let p := s.kernel.proc i
  let p' := { p with state := .running }
  let tt := s.timeticks i - 1
  if tt ≠ 0 then
    { s with
      kernel := (s.kernel.setProc i p').setCpu c (.running i ii i)
      timeticks := update s.timeticks i tt }
  else if p.level ≠ nlayer - 1 then
    { s with
      kernel := (((s.kernel.addLevel p.level (-1)).setProc i
        { p' with level := p.level + 1 }).addLevel (p.level + 1) 1).setCpu c (.running i ii (i + 1))
      timeticks := update s.timeticks i (slice (p.level + 1)) }
  else
    { s with
      kernel := (s.kernel.setProc i p').setCpu c (.running i ii (i + 1))
      timeticks := update s.timeticks i (slice p.level) }

def schedulerStep (c : Fin ncpu) (ii : ℤ) (p : ℕ) (s : Countdown ncpu) : Countdown ncpu :=
  match iterate s.kernel.proc s.kernel.ninlevel ii p with
  | .next ii' p' => { s with kernel := s.kernel.setCpu c (.scan ii' p') }
  | .dispatch i => dispatch slice c i ii s
  | .release => { s with kernel := (s.kernel.setCpu c .idle).setLock none }

/-- A new process gets a slice of level 0. -/
def allocproc (q : Slot) (s : Countdown ncpu) : Countdown ncpu :=
  match slots.find? (fun p ↦ (s.kernel.proc p).state = .unused) with
  | none => s
  | some np =>
    { s with
      kernel := ((s.kernel.setProc np ((s.kernel.proc np).embryo s.kernel.nextpid)).bumpPid).setPos
        q (.copy np)
      timeticks := update s.timeticks np (slice 0) }

def Starved (i : Slot) (s : Countdown ncpu) : Prop :=
  (s.kernel.proc i).level ≠ 0 ∧ (s.kernel.proc i).level = s.kernel.lastLevel i ∧
    s.timeticks i = s.lastTicks i

instance (i : Slot) (s : Countdown ncpu) : Decidable (Starved i s) :=
  inferInstanceAs (Decidable (_ ∧ _))

def promote (i : Slot) (s : Countdown ncpu) : Countdown ncpu :=
  let p := s.kernel.proc i
  { s with
    kernel := ((s.kernel.addLevel p.level (-1)).setProc i
      { p with level := p.level - 1 }).addLevel (p.level - 1) 1
    timeticks := update s.timeticks i (slice (p.level - 1)) }

def takeSnapshot (i : Slot) (s : Countdown ncpu) : Countdown ncpu :=
  { s with
    kernel := { s.kernel with
      lastLevel := update s.kernel.lastLevel i (s.kernel.proc i).level }
    lastTicks := update s.lastTicks i (s.timeticks i) }

def boostOne (s : Countdown ncpu) (i : Slot) : Countdown ncpu :=
  if (s.kernel.proc i).state ≠ .runnable then s
  else takeSnapshot i (if Starved i s then promote slice i s else s)

def checkStarveAndBoost (s : Countdown ncpu) : Countdown ncpu := slots.foldl (boostOne slice) s

/-- The transitions. -/
def step (a : Act ncpu) (s : Countdown ncpu) : Option (Countdown ncpu) :=
  match a with
  | .scan c =>
    match s.kernel.cpu c with
    | .scan ii p => some (schedulerStep slice c ii p s)
    | _ => none
  | .allocproc c => do
    let q ← s.kernel.caller c
    if s.kernel.lock = none then some (allocproc slice q s) else none
  | .boost c => do
    let q ← s.kernel.current c
    if (s.kernel.proc q).context.trap = .boost ∧ s.kernel.lock = none then
      let s := checkStarveAndBoost slice s
      some { s with kernel := s.kernel.setTrap q .yield }
    else none
  | a => (Mlfq.step a s.kernel).map fun k ↦ { s with kernel := k }

/-- `userinit` gives the first process a slice of level 0. -/
def boot (ncpu : ℕ) : Countdown ncpu where
  kernel := Mlfq.boot ncpu
  timeticks := update (fun _ ↦ 0) initproc (slice 0)
  lastTicks := fun _ ↦ 0

end Countdown

end CS537.Mlfq
