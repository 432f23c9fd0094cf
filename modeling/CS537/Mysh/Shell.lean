import CS537.Lib.Transition
import CS537.Mysh.Stream
import Mathlib.Algebra.Group.Int.Defs
import Mathlib.Data.Finset.Erase
import Mathlib.Data.Finset.Insert
import Mathlib.Data.Int.Order.Basic
import Mathlib.Order.Lattice

/-!
# The shell

`p2/p2a/mysh.c`: `readcommands` with `parse`, the built-in commands `j`, `myw` and `exit`, and
`execute`. The input is a finite file that only the shell reads. A move of the shell goes from one
call that depends on the outside to the next: `fgets`, `fork`, a `waitpid`; a child may terminate at
any time. A child whose `execvp` fails gives back what it has not read; a command that it becomes
leaves the file alone.

Of what the shell prints only the reports of `myw` are kept, and the arrays are as long as the code
needs them. The counters of jobs do not wrap: that would take `2 ^ 64` jobs.
-/

namespace CS537.Mysh

/-! ## Lines -/

/-- The string that an array holds. -/
def cstr (commands : List Byte) : List Byte := commands.takeWhile (· ≠ 0)

/-- `strchr(commands, '\n') != NULL`. -/
def Finished (commands : List Byte) : Prop := newline ∈ cstr commands

instance (commands : List Byte) : Decidable (Finished commands) :=
  inferInstanceAs (Decidable (_ ∈ _))

/-! ## Parsing -/

/-- `delim`: space, tab and newline. -/
def isDelim (b : Byte) : Bool := b = 0x20 ∨ b = 0x09 ∨ b = newline

/-- `strtok`: the next token and what is left. -/
def strtok (s : List Byte) : Option (List Byte × List Byte) :=
  match s.dropWhile isDelim with
  | [] => none
  | b :: s => some ((b :: s).takeWhile (!isDelim ·), ((b :: s).dropWhile (!isDelim ·)).tail)

/-- The loop of `parse` over the tokens, at most `n` of them. -/
def tokens : ℕ → List Byte → List (List Byte)
  | 0, _ => []
  | n + 1, s =>
    match strtok s with
    | none => []
    | some (token, s) => token :: tokens n s

/-- `&`. -/
def ampersand : Byte := 0x26

/-- `parse`: `argv` without its terminating NULL, and `background`; `none` for -1. -/
def parse (commands : List Byte) : Option (List (List Byte) × Bool) :=
  let argv := tokens (cstr commands).length (cstr commands)
  match argv.getLast? with
  | none => none
  | some arg =>
    if arg = [ampersand] then some (argv.dropLast, true)
    else if arg.getLast? = some ampersand then some (argv.dropLast ++ [arg.dropLast], true)
    else some (argv, false)

/-- `j`, `myw` and `exit`. -/
def jCommand : List Byte := [0x6A]

def mywCommand : List Byte := [0x6D, 0x79, 0x77]

def exitCommand : List Byte := [0x65, 0x78, 0x69, 0x74]

def isDigit (b : Byte) : Bool := 0x30 ≤ b ∧ b ≤ 0x39

/-- The digits at the start of a string: their value after `v`, and the rest. -/
def digits : ℕ → List Byte → ℕ × List Byte
  | v, [] => (v, [])
  | v, b :: s => if isDigit b then digits (10 * v + (b.toNat - 0x30)) s else (v, b :: s)

/-- The sign that `strtol` allows. -/
def signOf : List Byte → Bool × List Byte
  | [] => (false, [])
  | b :: s => if b = 0x2D then (true, s) else if b = 0x2B then (false, s) else (false, b :: s)

/-- `strtol(s, &endstr, 10)`: the value, cut down to a `long`, and `endstr`. -/
def strtol (s : List Byte) : ℤ × List Byte :=
  let (neg, t) := signOf (s.dropWhile fun b ↦ b = 0x20 ∨ 0x09 ≤ b ∧ b ≤ 0x0D)
  match t with
  | [] => (0, s)
  | b :: t =>
    if isDigit b then
      let (v, rest) := digits 0 (b :: t)
      (max (-2 ^ 63) (min (2 ^ 63 - 1) (if neg then -(v : ℤ) else v)), rest)
    else (0, s)

/-! ## The state -/

/-- An entry of the job list. -/
structure Node where
  jid : ℕ
  pid : ℤ
  argc : ℕ
  argv : List (List Byte)
  deriving DecidableEq

/-- Who calls `removeStoppedJobs`: `printList`, or `jid2pid(jid)` for `myw arg`, where `strtol` has
left `endstr`. -/
inductive Caller
  | printList
  | jid2pid (arg : List Byte) (jid : ℕ) (endstr : List Byte)
  deriving DecidableEq

/-- What `myw` prints, without the time. -/
inductive Report
  | invalid (arg : List Byte)
  | terminated (jid : ℕ)
  deriving DecidableEq

/-- Where the shell is. `loop`: at the `fgets` of the outer loop. `swallow`: at the test of the
inner loop. `line`: with a line in `commands`. `removeStopped`: in `removeStoppedJobs`, which has
kept some entries and has some to go. `waitpid`: waiting for a child, in `execute` or for `myw`,
which then reports the `jid`. -/
inductive Pc
  | loop
  | swallow
  | line
  | removeStopped (caller : Caller) (kept todo : List Node)
  | execute (argv : List (List Byte)) (background : Bool)
  | waitpid (pid : ℤ) (jid : Option ℕ)
  | returned
  | exited
  deriving DecidableEq

/-- `joblist` is the list behind the first node, whose `jid` is `maxJid`; `jid` is the static
counter of `execute`. `zombies` are the children that have terminated and have not been waited
for. The copy of the stream in a child has `copies` bytes in its buffer. -/
structure Shell where
  stream : Stream
  commands : List Byte
  pc : Pc
  joblist : List Node
  maxJid : ℕ
  jid : ℕ
  running : Finset ℤ
  zombies : Finset ℤ
  copies : ℤ → ℕ
  reports : List Report

namespace Shell

variable (s : Shell)

/-- What the shell is still going to read. -/
def input : List Byte := s.stream.unread

def goto (pc : Pc) : Shell := { s with pc := pc }

def report (r : Report) : Shell := { s with reports := s.reports ++ [r] }

/-- `fgets` in the outer loop. -/
def readcommands : Shell :=
  match s.stream.fgets with
  | (none, f) => { s with stream := f, pc := .returned }
  | (some line, f) =>
    { s with
      stream := f
      commands := line
      pc := if Finished line then .line else .swallow }

/-- A round of the inner loop, or its end. At the end of the input `fgets` leaves `commands` as it
is. -/
def swallow : Shell :=
  if Finished s.commands then s.goto .loop
  else
    match s.stream.fgets with
    | (none, f) => { s with stream := f }
    | (some line, f) => { s with stream := f, commands := line }

/-- `jid2pid` as called for `myw`. -/
def myw (arg : List Byte) : Shell :=
  let (v, endstr) := strtol arg
  let jid := (v % 2 ^ 64).toNat
  if s.maxJid < jid then (s.report (.invalid arg)).goto .loop
  else s.goto (.removeStopped (.jid2pid arg jid endstr) [] s.joblist)

/-- What `readcommands` does with a line. -/
def dispatch : Shell :=
  if s.commands.head? = some newline then s.goto .loop
  else
    match parse s.commands with
    | none => s.goto .loop
    | some ([], _) => s.goto .loop
    | some (cmd :: args, background) =>
      if cmd = jCommand ∧ args = [] then s.goto (.removeStopped .printList [] s.joblist)
      else if cmd = mywCommand ∧ args.length = 1 then s.myw (args.headD [])
      else if cmd = exitCommand ∧ args = [] then s.goto .exited
      else s.goto (.execute (cmd :: args) background)

/-- The end of `removeStoppedJobs`, and what its caller does with the list `kept`. -/
def stoppedRemoved (caller : Caller) (kept : List Node) : Shell :=
  let s := { s with joblist := kept }
  match caller with
  | .printList => s.goto .loop
  | .jid2pid arg jid endstr =>
    if endstr ≠ [] then (s.report (.invalid arg)).goto .loop
    else
      match kept.find? fun n ↦ n.jid = jid with
      | none => (s.report (.terminated jid)).goto .loop
      | some n => s.goto (.waitpid n.pid (some jid))

/-- One entry in `removeStoppedJobs`: `waitpid(pid, NULL, WNOHANG)` is 0 for a running child. -/
def removeStopped (caller : Caller) (kept : List Node) : List Node → Shell
  | [] => s.stoppedRemoved caller kept
  | n :: todo =>
    if n.pid ∈ s.running then s.goto (.removeStopped caller (kept ++ [n]) todo)
    else
      { s with
        zombies := s.zombies.erase n.pid
        pc := .removeStopped caller kept todo }

/-- `execute` in the parent, with the result of `fork`. -/
def execute (argv : List (List Byte)) (background : Bool) : Option ℤ → Shell
  | none => s.goto .loop
  | some pid =>
    { s with
      joblist := s.joblist ++ [⟨s.jid + 1, pid, argv.length, argv⟩]
      maxJid := s.maxJid + 1
      jid := s.jid + 1
      running := insert pid s.running
      copies := Function.update s.copies pid s.stream.buffer.length
      pc := if background then .loop else .waitpid pid none }

/-- `waitpid` has returned. -/
def waited (pid : ℤ) (jid : Option ℕ) : Shell :=
  { s with
    zombies := s.zombies.erase pid
    reports := s.reports ++ (jid.map .terminated).toList
    pc := .loop }

/-- A child terminates. If `execvp` has not `found` the command it does so in `exit(1)`. -/
def terminate (pid : ℤ) (found : Bool) : Shell :=
  { s with
    stream := if found then s.stream else s.stream.giveBack (s.copies pid)
    running := s.running.erase pid
    zombies := insert pid s.zombies }

end Shell

/-! ## The transition system -/

/-- `fork pid`: what `fork` returns to the shell, `none` when it fails. -/
inductive Act
  | shell
  | fork (pid : Option ℤ)
  | terminate (pid : ℤ) (found : Bool)
  deriving DecidableEq

/-- `pid` is free for a new child. -/
def Shell.Free (s : Shell) (pid : ℤ) : Prop := 0 < pid ∧ pid ∉ s.running ∧ pid ∉ s.zombies

instance (s : Shell) (pid : ℤ) : Decidable (s.Free pid) :=
  inferInstanceAs (Decidable (_ ∧ _ ∧ _))

def step (a : Act) (s : Shell) : Option Shell :=
  match a with
  | .shell =>
    match s.pc with
    | .loop => some s.readcommands
    | .swallow => some s.swallow
    | .line => some s.dispatch
    | .removeStopped caller kept todo => some (s.removeStopped caller kept todo)
    | .waitpid pid jid => if pid ∈ s.running then none else some (s.waited pid jid)
    | .execute _ _ | .returned | .exited => none
  | .fork r =>
    match s.pc with
    | .execute argv background =>
      if ∀ pid ∈ r, s.Free pid then some (s.execute argv background r) else none
    | _ => none
  | .terminate pid found => if pid ∈ s.running then some (s.terminate pid found) else none

/-- The moves with their guards. -/
inductive Trans (s : Shell) : Act → Shell → Prop
  | readcommands (hpc : s.pc = .loop) : Trans s .shell s.readcommands
  | swallow (hpc : s.pc = .swallow) : Trans s .shell s.swallow
  | dispatch (hpc : s.pc = .line) : Trans s .shell s.dispatch
  | removeStopped {caller : Caller} {kept todo : List Node}
    (hpc : s.pc = .removeStopped caller kept todo) :
    Trans s .shell (s.removeStopped caller kept todo)
  | waited {pid : ℤ} {jid : Option ℕ} (hpc : s.pc = .waitpid pid jid) (hpid : pid ∉ s.running) :
    Trans s .shell (s.waited pid jid)
  | fork {argv : List (List Byte)} {background : Bool} {r : Option ℤ}
    (hpc : s.pc = .execute argv background) (hr : ∀ pid ∈ r, s.Free pid) :
    Trans s (.fork r) (s.execute argv background r)
  | terminate {pid : ℤ} {found : Bool} (hpid : pid ∈ s.running) :
    Trans s (.terminate pid found) (s.terminate pid found)

theorem trans_of_step {s t : Shell} {a : Act} (h : step a s = some t) : Trans s a t := by
  cases a with
  | terminate pid found =>
    obtain ⟨hpid, ht⟩ := Option.ite_none_right_eq_some.mp h
    rw [← Option.some.inj ht]
    exact .terminate hpid
  | fork r =>
    rw [step] at h
    split at h
    · obtain ⟨hr, ht⟩ := Option.ite_none_right_eq_some.mp h
      rw [← Option.some.inj ht]
      exact .fork ‹_› hr
    · cases h
  | shell =>
    rw [step] at h
    split at h
    · rw [← Option.some.inj h]
      exact .readcommands ‹_›
    · rw [← Option.some.inj h]
      exact .swallow ‹_›
    · rw [← Option.some.inj h]
      exact .dispatch ‹_›
    · rw [← Option.some.inj h]
      exact .removeStopped ‹_›
    · obtain ⟨hpid, ht⟩ := Option.ite_none_left_eq_some.mp h
      rw [← Option.some.inj ht]
      exact .waited ‹_› hpid
    -- the shell waits for `fork`, or is done
    · cases h
    · cases h
    · cases h

/-- `readcommands` is called. -/
def start (seekable : Bool) (input : List Byte) : Shell where
  stream := fopen seekable input
  commands := []
  pc := .loop
  joblist := []
  maxJid := 0
  jid := 0
  running := ∅
  zombies := ∅
  copies := fun _ ↦ 0
  reports := []

/-- `readcommands` has returned or the shell has exited. -/
def Shell.Done (s : Shell) : Prop := s.pc = .returned ∨ s.pc = .exited

end CS537.Mysh
