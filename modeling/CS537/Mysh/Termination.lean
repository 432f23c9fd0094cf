import CS537.Mysh.Shell
import Mathlib.Data.Finset.Card

/-!
# Which inputs end the shell

`fgets` cuts the input into pieces. A piece is read by the outer loop if it is the first or if the
piece before it has a newline, and by the inner loop otherwise. The inner loop spins at the end of
the input if the last piece has no newline.

Nothing the children do changes that, as long as none of them gives input back. A child that does
not find its command moves the offset of a batch file back over what the shell has in its buffer,
and three such lines can be read for ever.
-/

namespace CS537.Mysh

open Transition

variable {input rest : List Byte} {c line : List Byte} {cs : List (List Byte)} {s t : Shell}
  {a : Act}

/-! ## Pieces of the input -/

theorem readLine_append (n : ℕ) (input : List Byte) :
    (readLine n input).1 ++ (readLine n input).2 = input := by
  induction n generalizing input with
  | zero => rfl
  | succ n ih =>
    cases input with
    | nil => rfl
    | cons b input =>
      rw [readLine]
      split
      · rfl
      · exact congrArg (b :: ·) (ih input)

theorem readLine_ne_nil {n : ℕ} (h : input ≠ []) : (readLine (n + 1) input).1 ≠ [] := by
  cases input with
  | nil => exact absurd rfl h
  | cons b input =>
    rw [readLine]
    split
    · exact List.cons_ne_nil _ _
    · exact List.cons_ne_nil _ _

theorem fgets_eq_none : fgets input = none ↔ input = [] := by
  rw [fgets]
  split_ifs with h
  · exact iff_of_true rfl h
  · exact iff_of_false id h

/-- `fgets` takes at least a byte. -/
theorem length_lt_of_fgets (h : fgets input = some (line, rest)) : rest.length < input.length := by
  rw [fgets] at h
  split at h
  · cases h
  · rename_i hne
    have happ := readLine_append lsize input
    have hpos := List.length_pos_iff.mpr (readLine_ne_nil (n := 512) hne)
    rw [Option.some.inj h] at happ
    change 0 < (readLine lsize input).1.length at hpos
    rw [Option.some.inj h] at hpos
    rw [← happ, List.length_append]
    exact Nat.lt_add_of_pos_left hpos

/-- What the calls of `fgets` return until the end of the input. -/
def pieces (input : List Byte) : List (List Byte) :=
  match _h : fgets input with
  | none => []
  | some (line, rest) => line :: pieces rest
termination_by input.length
decreasing_by exact length_lt_of_fgets _h

theorem pieces_of_none (h : fgets input = none) : pieces input = [] := by
  rw [pieces]
  split
  · rfl
  · rename_i hsome
    rw [h] at hsome
    cases hsome

theorem pieces_of_some (h : fgets input = some (line, rest)) :
    pieces input = line :: pieces rest := by
  rw [pieces]
  split
  · rename_i hnone
    rw [h] at hnone
    cases hnone
  · rename_i hsome
    rw [h] at hsome
    cases hsome
    rfl

/-! ## Inputs without an end -/

/-- The shell exits on the line. -/
def Exits (c : List Byte) : Prop :=
  c.head? ≠ some newline ∧ ∃ background, parse c = some ([exitCommand], background)

/-- The outer loop gets a line on which the shell exits; `outer` says whether it reads the first
piece. -/
def ExitAhead : Prop → List (List Byte) → Prop
  | _, [] => False
  | outer, c :: cs => (outer ∧ Finished c ∧ Exits c) ∨ ExitAhead (Finished c) cs

/-- The last piece has no newline and the shell does not exit before. -/
def Unending (outer : Prop) (cs : List (List Byte)) : Prop :=
  (∃ c, cs.getLast? = some c ∧ ¬Finished c) ∧ ¬ExitAhead outer cs

theorem unending_finished {outer : Prop} (h : Finished c) :
    Unending outer (c :: cs) ↔ ¬(outer ∧ Exits c) ∧ Unending True cs := by
  have hlast : (∃ d, (c :: cs).getLast? = some d ∧ ¬Finished d)
      ↔ ∃ d, cs.getLast? = some d ∧ ¬Finished d := by
    cases cs with
    | nil => simp [h]
    | cons d cs => rw [List.getLast?_cons_cons]
  rw [Unending, Unending, hlast, ExitAhead]
  simp only [h, true_and, not_or]
  exact and_left_comm

theorem unending_unfinished {outer : Prop} {d : List Byte} (h : ¬Finished c) :
    Unending outer (c :: d :: cs) ↔ Unending False (d :: cs) := by
  rw [Unending, Unending, List.getLast?_cons_cons, ExitAhead]
  simp only [h, false_and, and_false, false_or]

theorem unending_last {outer : Prop} (h : ¬Finished c) : Unending outer [c] := by
  refine ⟨⟨c, rfl, h⟩, ?_⟩
  rintro (⟨-, hfin, -⟩ | hahead)
  · exact h hfin
  · exact hahead

/-! ## What the shell reads -/

theorem readcommands_cases (s : Shell) :
    (fgets s.input = none ∧ ∃ f, f.unread = [] ∧
        s.readcommands = { s with stream := f, pc := .returned }) ∨
      ∃ line f, fgets s.input = some (line, f.unread) ∧ s.readcommands = { s with
        stream := f
        commands := line
        pc := if Finished line then .line else .swallow } := by
  rw [Shell.readcommands, Shell.input]
  rcases s.stream.fgets_cases with ⟨f, hf, hnone, hnil⟩ | ⟨line, f, hf, hsome⟩
  · rw [hf]
    exact .inl ⟨hnone, f, hnil, rfl⟩
  · rw [hf]
    exact .inr ⟨line, f, hsome, rfl⟩

/-- At the end of the input the inner loop goes on. -/
theorem swallow_cases (s : Shell) : (Finished s.commands ∧ s.swallow = s.goto .loop) ∨
    ¬Finished s.commands ∧ ((fgets s.input = none ∧ ∃ f, f.unread = [] ∧
        s.swallow = { s with stream := f }) ∨
      ∃ line f, fgets s.input = some (line, f.unread) ∧
        s.swallow = { s with stream := f, commands := line }) := by
  rw [Shell.swallow, Shell.input]
  split_ifs with hfin
  · exact .inl ⟨hfin, rfl⟩
  · refine .inr ⟨hfin, ?_⟩
    rcases s.stream.fgets_cases with ⟨f, hf, hnone, hnil⟩ | ⟨line, f, hf, hsome⟩
    · rw [hf]
      exact .inl ⟨hnone, f, hnil, rfl⟩
    · rw [hf]
      exact .inr ⟨line, f, hsome, rfl⟩

/-- The child does not find its command, and gives back what its copy of the stream has in the
buffer. -/
def GivesBack (s : Shell) : Act → Prop
  | .terminate pid found => found = false ∧
      (s.stream.seekable ∧ s.stream.eof = false ∧ 0 < s.copies pid ∧ s.copies pid ≤ s.stream.offset)
  | _ => False

instance (s : Shell) (a : Act) : Decidable (GivesBack s a) :=
  match a with
  | .terminate _ _ => inferInstanceAs (Decidable (_ ∧ _))
  | .shell => .isFalse id
  | .fork _ => .isFalse id

/-- The moves in which no child gives anything back. -/
def stepKeeping (a : Act) (s : Shell) : Option Shell := if GivesBack s a then none else step a s

theorem input_terminate {pid : ℤ} {found : Bool} (h : ¬GivesBack s (.terminate pid found)) :
    (s.terminate pid found).input = s.input := by
  rw [Shell.input, Shell.terminate]
  cases found with
  | true => rfl
  | false => exact Stream.unread_giveBack_of_not fun hback ↦ h ⟨rfl, hback⟩

/-- The shell will never be done. -/
def Shell.Hung (s : Shell) : Prop :=
  match s.pc with
  | .loop | .removeStopped _ _ _ | .execute _ _ | .waitpid _ _ => Unending True (pieces s.input)
  | .swallow => Unending False (s.commands :: pieces s.input)
  | .line => ¬Exits s.commands ∧ Unending True (pieces s.input)
  | .returned | .exited => False

/-! ## Every move keeps it -/

/-- The places from which the shell goes back to the outer loop. -/
inductive Pc.Back : Pc → Prop
  | loop : Back .loop
  | removeStopped (caller : Caller) (kept todo : List Node) : Back (.removeStopped caller kept todo)
  | execute (argv : List (List Byte)) (background : Bool) : Back (.execute argv background)
  | waitpid (pid : ℤ) (jid : Option ℕ) : Back (.waitpid pid jid)

theorem Pc.Back.hung_iff (h : s.pc.Back) : s.Hung ↔ Unending True (pieces s.input) := by
  rw [Shell.Hung]
  generalize s.pc = pc at h ⊢
  cases h <;> rfl

theorem hung_readcommands (h : s.pc = .loop) : s.readcommands.Hung ↔ s.Hung := by
  have hs : s.Hung ↔ Unending True (pieces s.input) :=
    Pc.Back.hung_iff (by rw [h]; exact .loop)
  rw [hs]
  rcases readcommands_cases s with ⟨hf, f, -, heq⟩ | ⟨line, f, hf, heq⟩
  · rw [heq, pieces_of_none hf]
    refine iff_of_false id ?_
    rintro ⟨⟨c, hc, -⟩, -⟩
    cases hc
  · rw [heq, pieces_of_some hf]
    split
    · rename_i hfin
      rw [unending_finished hfin, true_and]
      rfl
    · rename_i hfin
      -- whether the outer loop reads it makes no difference for an unfinished piece
      have hany : Unending False (line :: pieces f.unread) ↔
          Unending True (line :: pieces f.unread) := by
        cases pieces f.unread with
        | nil => exact iff_of_true (unending_last hfin) (unending_last hfin)
        | cons d cs => rw [unending_unfinished hfin, unending_unfinished hfin]
      exact hany

theorem hung_swallow (h : s.pc = .swallow) : s.swallow.Hung ↔ s.Hung := by
  have hs : s.Hung ↔ Unending False (s.commands :: pieces s.input) := by
    rw [Shell.Hung, h]
  rw [hs]
  rcases swallow_cases s with ⟨hfin, heq⟩ | ⟨hfin, ⟨hf, f, hnil, heq⟩ | ⟨line, f, hf, heq⟩⟩
  · rw [heq, unending_finished hfin, false_and, not_false_eq_true, true_and]
    rfl
  · -- at the end of the input `commands` keeps the piece, and the loop goes on
    have hinput : s.input = [] := fgets_eq_none.mp hf
    rw [heq, Shell.Hung]
    dsimp only
    rw [h, hinput, Shell.input, hnil]
  · rw [heq, pieces_of_some hf, unending_unfinished hfin, Shell.Hung]
    dsimp only
    rw [h]
    rfl

/-- Where a line leads that does not make the shell exit. -/
inductive Pc.FromLine (joblist : List Node) : Pc → Prop
  | loop : FromLine joblist .loop
  | removeStopped (caller : Caller) : FromLine joblist (.removeStopped caller [] joblist)
  | execute (argv : List (List Byte)) (background : Bool) :
      FromLine joblist (.execute argv background)

theorem Pc.FromLine.back {joblist : List Node} {pc : Pc} (h : FromLine joblist pc) : pc.Back := by
  cases h with
  | loop => exact .loop
  | removeStopped caller => exact .removeStopped _ _ _
  | execute argv background => exact .execute _ _

theorem myw_fromLine (s : Shell) (arg : List Byte) : ∃ (pc : Pc) (reports : List Report),
    pc.FromLine s.joblist ∧ s.myw arg = { s with pc := pc, reports := reports } := by
  rw [Shell.myw]
  dsimp only
  split
  · exact ⟨_, _, .loop, rfl⟩
  · exact ⟨_, _, .removeStopped _, rfl⟩

theorem not_exits_of_parse {cmd : List Byte} {args : List (List Byte)} {background : Bool}
    (h : parse c = some (cmd :: args, background)) (hne : ¬(cmd = exitCommand ∧ args = [])) :
    ¬Exits c := by
  rintro ⟨-, background', hexit⟩
  rw [h, Option.some.injEq, Prod.mk.injEq, List.cons.injEq] at hexit
  exact hne hexit.1

/-- A line makes the shell exit, or it leads back to the outer loop. -/
theorem dispatch_cases (s : Shell) : Exits s.commands ∧ s.dispatch = s.goto .exited ∨
    ¬Exits s.commands ∧ ∃ (pc : Pc) (reports : List Report), pc.FromLine s.joblist ∧
      s.dispatch = { s with pc := pc, reports := reports } := by
  rw [Shell.dispatch]
  split
  · exact .inr ⟨fun h ↦ h.1 ‹_›, _, _, .loop, rfl⟩
  rename_i hhead
  split
  · rename_i hparse
    refine .inr ⟨?_, _, _, .loop, rfl⟩
    rintro ⟨-, background, hexit⟩
    rw [hparse] at hexit
    cases hexit
  · rename_i background hparse
    refine .inr ⟨?_, _, _, .loop, rfl⟩
    rintro ⟨-, background', hexit⟩
    rw [hparse] at hexit
    cases hexit
  -- in the order of the source: `j`, `myw`, `exit`, and any other command
  · rename_i cmd args background hparse
    split
    · rename_i hj
      refine .inr ⟨not_exits_of_parse hparse ?_, _, _, .removeStopped _, rfl⟩
      rw [hj.1]
      exact fun h ↦ absurd h.1 (by decide)
    split
    · rename_i hmyw
      refine .inr ⟨not_exits_of_parse hparse ?_, myw_fromLine s _⟩
      rw [hmyw.1]
      exact fun h ↦ absurd h.1 (by decide)
    split
    · rename_i hexit
      obtain ⟨rfl, rfl⟩ := hexit
      exact .inl ⟨⟨hhead, background, hparse⟩, rfl⟩
    · exact .inr ⟨not_exits_of_parse hparse ‹_›, _, _, .execute _ _, rfl⟩

theorem hung_dispatch (h : s.pc = .line) : s.dispatch.Hung ↔ s.Hung := by
  have hs : s.Hung ↔ ¬Exits s.commands ∧ Unending True (pieces s.input) := by
    rw [Shell.Hung, h]
  rw [hs]
  rcases dispatch_cases s with ⟨hexit, heq⟩ | ⟨hexit, pc, reports, hpc, heq⟩
  · rw [heq]
    exact iff_of_false id fun hu ↦ hu.1 hexit
  · have hback : s.dispatch.pc.Back := by
      rw [heq]
      exact hpc.back
    rw [hback.hung_iff, heq]
    exact (and_iff_right hexit).symm

/-- Where `removeStoppedJobs` leads. -/
theorem removeStopped_cases (s : Shell) (caller : Caller) (kept todo : List Node) :
    (todo = [] ∧ ∃ pc reports, (pc = .loop ∨ ∃ pid jid, pc = .waitpid pid jid) ∧
      s.removeStopped caller kept todo
        = { s with joblist := kept, pc := pc, reports := reports }) ∨
    ∃ n todo', todo = n :: todo' ∧ ∃ kept' zombies, kept'.length ≤ kept.length + 1 ∧
      s.removeStopped caller kept todo
        = { s with zombies := zombies, pc := .removeStopped caller kept' todo' } := by
  cases todo with
  | nil =>
    refine .inl ⟨rfl, ?_⟩
    cases caller with
    | printList => exact ⟨_, _, .inl rfl, rfl⟩
    | jid2pid arg jid endstr =>
      simp only [Shell.removeStopped, Shell.stoppedRemoved]
      split
      · exact ⟨_, _, .inl rfl, rfl⟩
      split
      · exact ⟨_, _, .inl rfl, rfl⟩
      · exact ⟨_, _, .inr ⟨_, _, rfl⟩, rfl⟩
  | cons n todo =>
    refine .inr ⟨n, todo, rfl, ?_⟩
    rw [Shell.removeStopped]
    split
    · exact ⟨kept ++ [n], s.zombies, by simp, rfl⟩
    · exact ⟨kept, _, Nat.le_succ _, rfl⟩

theorem hung_of_back (hs : s.pc.Back) (ht : t.pc.Back) (hinput : t.input = s.input) :
    t.Hung ↔ s.Hung := by
  rw [hs.hung_iff, ht.hung_iff, hinput]

theorem hung_removeStopped {caller : Caller} {kept todo : List Node}
    (h : s.pc = .removeStopped caller kept todo) :
    (s.removeStopped caller kept todo).Hung ↔ s.Hung := by
  have hs : s.pc.Back := by
    rw [h]
    exact .removeStopped _ _ _
  rcases removeStopped_cases s caller kept todo with
    ⟨-, pc, reports, hpc, heq⟩ | ⟨n, todo', -, kept', zombies, -, heq⟩
  · rw [heq]
    refine hung_of_back hs ?_ rfl
    rcases hpc with rfl | ⟨pid, jid, rfl⟩
    · exact .loop
    · exact .waitpid pid jid
  · rw [heq]
    exact hung_of_back hs (.removeStopped _ _ _) rfl

theorem hung_execute {argv : List (List Byte)} {background : Bool} (r : Option ℤ)
    (h : s.pc = .execute argv background) : (s.execute argv background r).Hung ↔ s.Hung := by
  have hs : s.pc.Back := by
    rw [h]
    exact .execute _ _
  cases r with
  | none => exact hung_of_back hs .loop rfl
  | some pid =>
    refine hung_of_back hs ?_ rfl
    rw [Shell.execute]
    dsimp only
    split
    · exact .loop
    · exact .waitpid _ _

theorem stepKeeping_eq_some :
    stepKeeping a s = some t ↔ ¬GivesBack s a ∧ step a s = some t := Option.ite_none_left_eq_some

theorem hung_terminate {pid : ℤ} {found : Bool} (h : ¬GivesBack s (.terminate pid found)) :
    (s.terminate pid found).Hung ↔ s.Hung := by
  rw [Shell.Hung, Shell.Hung, input_terminate h]
  rfl

/-- Whether the shell is hung does not change. -/
theorem hung_step (h : stepKeeping a s = some t) : t.Hung ↔ s.Hung := by
  obtain ⟨hkeep, hstep⟩ := stepKeeping_eq_some.mp h
  cases trans_of_step hstep with
  | readcommands hpc => exact hung_readcommands hpc
  | swallow hpc => exact hung_swallow hpc
  | dispatch hpc => exact hung_dispatch hpc
  | removeStopped hpc => exact hung_removeStopped hpc
  | waited hpc => exact hung_of_back (by rw [hpc]; exact .waitpid _ _) .loop rfl
  | fork hpc => exact hung_execute _ hpc
  | terminate => exact hung_terminate hkeep

/-! ## The rank -/

/-- The jobs in the list, those that `removeStoppedJobs` has at hand. -/
def Shell.jobs (s : Shell) : ℕ :=
  match s.pc with
  | .removeStopped _ kept todo => kept.length + todo.length
  | _ => s.joblist.length

/-- A line may add a job. -/
def Pc.adds : Pc → ℕ
  | .line | .execute _ _ => 1
  | _ => 0

/-- A bound on the length of the job list from now on. -/
def Shell.potential (s : Shell) : ℕ := s.jobs + s.input.length + s.pc.adds

/-- The moves of the shell that are left before the next read, at most. -/
def Shell.phase (s : Shell) : ℕ :=
  match s.pc with
  | .returned | .exited => 0
  | .loop => 1
  | .swallow | .waitpid _ _ => 2
  | .removeStopped _ _ todo => todo.length + 3
  | .execute _ _ => 4
  | .line => s.joblist.length + 5

/-- With those of the children. -/
def Shell.toRead (s : Shell) : ℕ := s.phase + s.running.card

def Shell.rank (s : Shell) : ℕ := s.input.length * (s.potential + 8) + s.toRead

theorem toRead_dispatch (h : s.pc = .line) : s.dispatch.toRead < s.toRead := by
  have hphase : s.phase = s.joblist.length + 5 := by rw [Shell.phase, h]
  rcases dispatch_cases s with ⟨-, heq⟩ | ⟨-, pc, reports, hpc, heq⟩
  · rw [heq, Shell.toRead, Shell.toRead, hphase]
    exact Nat.add_lt_add_right (Nat.succ_pos _) _
  · rw [heq, Shell.toRead, Shell.toRead, hphase]
    refine Nat.add_lt_add_right ?_ _
    cases hpc <;> simp only [Shell.phase] <;> omega

theorem toRead_removeStopped {caller : Caller} {kept todo : List Node}
    (h : s.pc = .removeStopped caller kept todo) :
    (s.removeStopped caller kept todo).toRead < s.toRead := by
  have hphase : s.phase = todo.length + 3 := by rw [Shell.phase, h]
  rcases removeStopped_cases s caller kept todo with
    ⟨htodo, pc, reports, hpc, heq⟩ | ⟨n, todo', htodo, kept', zombies, hkept, heq⟩
  · rw [heq, Shell.toRead, Shell.toRead, hphase]
    refine Nat.add_lt_add_right ?_ _
    rcases hpc with rfl | ⟨pid, jid, rfl⟩ <;> simp only [Shell.phase] <;> omega
  · rw [heq, Shell.toRead, Shell.toRead, hphase, htodo, List.length_cons]
    refine Nat.add_lt_add_right ?_ _
    simp only [Shell.phase]
    omega

theorem toRead_waited {pid : ℤ} {jid : Option ℕ} (h : s.pc = .waitpid pid jid) :
    (s.waited pid jid).toRead < s.toRead := by
  have hphase : s.phase = 2 := by rw [Shell.phase, h]
  rw [Shell.toRead, Shell.toRead, hphase]
  exact Nat.add_lt_add_right Nat.one_lt_two _

theorem toRead_execute {argv : List (List Byte)} {background : Bool} (r : Option ℤ)
    (h : s.pc = .execute argv background) : (s.execute argv background r).toRead < s.toRead := by
  have hphase : s.phase = 4 := by rw [Shell.phase, h]
  rw [Shell.toRead, Shell.toRead, hphase]
  cases r with
  | none => exact Nat.add_lt_add_right (by decide : 1 < 4) _
  | some pid =>
    have hcard := Finset.card_insert_le pid s.running
    cases background <;> simp only [Shell.phase, Shell.execute] <;> simp <;> omega

theorem toRead_terminate {pid : ℤ} (found : Bool) (h : pid ∈ s.running) :
    (s.terminate pid found).toRead < s.toRead :=
  Nat.add_lt_add_left (Finset.card_erase_lt_of_mem h) s.phase

/-- A move that reads nothing is one less to the next read. -/
theorem toRead_step (hstep : step a s = some t) (hloop : s.pc ≠ .loop)
    (hswallow : s.pc ≠ .swallow) : t.toRead < s.toRead := by
  cases trans_of_step hstep with
  | readcommands hpc => exact absurd hpc hloop
  | swallow hpc => exact absurd hpc hswallow
  | dispatch hpc => exact toRead_dispatch hpc
  | removeStopped hpc => exact toRead_removeStopped hpc
  | waited hpc => exact toRead_waited hpc
  | fork hpc => exact toRead_execute _ hpc
  | terminate hpid => exact toRead_terminate _ hpid

/-- A move that reads nothing. -/
theorem rank_lt_of_toRead (hinput : t.input = s.input) (hpot : t.potential ≤ s.potential)
    (htoRead : t.toRead < s.toRead) : t.rank < s.rank := by
  have hmul : s.input.length * (t.potential + 8) ≤ s.input.length * (s.potential + 8) :=
    Nat.mul_le_mul_left _ (by omega)
  rw [Shell.rank, Shell.rank, hinput]
  omega

/-- A move that reads a piece. -/
theorem rank_lt_of_read (hinput : t.input.length < s.input.length)
    (hpot : t.potential ≤ s.potential) (hphase : t.phase ≤ s.potential + 5)
    (hrunning : t.running = s.running) : t.rank < s.rank := by
  have hmul : t.input.length * (t.potential + 8) ≤ t.input.length * (s.potential + 8) :=
    Nat.mul_le_mul_left _ (by omega)
  have hpiece : (t.input.length + 1) * (s.potential + 8) ≤ s.input.length * (s.potential + 8) :=
    Nat.mul_le_mul_right _ hinput
  rw [Nat.add_mul, Nat.one_mul] at hpiece
  rw [Shell.rank, Shell.rank, Shell.toRead, Shell.toRead, hrunning]
  omega

theorem rank_readcommands (h : s.pc = .loop) : s.readcommands.rank < s.rank := by
  have hpot : s.potential = s.joblist.length + s.input.length := by
    simp [Shell.potential, Shell.jobs, Pc.adds, h]
  have hphase : s.phase = 1 := by rw [Shell.phase, h]
  rcases readcommands_cases s with ⟨hf, f, hnil, heq⟩ | ⟨line, f, hf, heq⟩
  · have hinput : f.unread = s.input := hnil.trans (fgets_eq_none.mp hf).symm
    rw [heq]
    refine rank_lt_of_toRead hinput ?_ ?_
    · rw [hpot, ← hinput]
      exact le_rfl
    · rw [Shell.toRead, Shell.toRead, hphase]
      exact Nat.add_lt_add_right Nat.one_pos _
  · have hlt := length_lt_of_fgets hf
    rw [heq]
    refine rank_lt_of_read hlt ?_ ?_ rfl
    · rw [hpot]
      split <;> simp only [Shell.potential, Shell.jobs, Pc.adds, Shell.input] at hlt ⊢ <;> omega
    · rw [hpot]
      split <;> simp only [Shell.phase] <;> omega

theorem rank_swallow (h : s.pc = .swallow) (hung : ¬s.Hung) : s.swallow.rank < s.rank := by
  have hpot : s.potential = s.joblist.length + s.input.length := by
    simp [Shell.potential, Shell.jobs, Pc.adds, h]
  have hphase : s.phase = 2 := by rw [Shell.phase, h]
  rcases swallow_cases s with ⟨-, heq⟩ | ⟨hfin, ⟨hf, -⟩ | ⟨line, f, hf, heq⟩⟩
  · rw [heq]
    refine rank_lt_of_toRead rfl hpot.ge ?_
    rw [Shell.toRead, Shell.toRead, hphase]
    exact Nat.add_lt_add_right Nat.one_lt_two _
  · -- the inner loop spins
    refine absurd ?_ hung
    rw [Shell.Hung, h, pieces_of_none hf]
    exact unending_last hfin
  · have hlt := length_lt_of_fgets hf
    rw [heq]
    refine rank_lt_of_read hlt ?_ ?_ rfl
    · rw [hpot]
      simp only [Shell.potential, Shell.jobs, Pc.adds, h, Shell.input] at hlt ⊢
      omega
    · simp only [Shell.phase, h]
      omega

theorem rank_dispatch (h : s.pc = .line) : s.dispatch.rank < s.rank := by
  have hpot : s.potential = s.joblist.length + s.input.length + 1 := by
    simp [Shell.potential, Shell.jobs, Pc.adds, h]
  have htoRead := toRead_dispatch h
  rcases dispatch_cases s with ⟨-, heq⟩ | ⟨-, pc, reports, hpc, heq⟩
  · rw [heq] at htoRead ⊢
    exact rank_lt_of_toRead rfl (hpot.ge.trans' (Nat.le_succ _)) htoRead
  · rw [heq] at htoRead ⊢
    refine rank_lt_of_toRead rfl ?_ htoRead
    rw [hpot]
    cases hpc <;> simp [Shell.potential, Shell.jobs, Pc.adds, Shell.input]

theorem rank_removeStopped {caller : Caller} {kept todo : List Node}
    (h : s.pc = .removeStopped caller kept todo) :
    (s.removeStopped caller kept todo).rank < s.rank := by
  have hpot : s.potential = kept.length + todo.length + s.input.length := by
    simp [Shell.potential, Shell.jobs, Pc.adds, h]
  have htoRead := toRead_removeStopped h
  rcases removeStopped_cases s caller kept todo with
    ⟨htodo, pc, reports, hpc, heq⟩ | ⟨n, todo', htodo, kept', zombies, hkept, heq⟩
  · rw [heq] at htoRead ⊢
    refine rank_lt_of_toRead rfl ?_ htoRead
    rw [hpot]
    rcases hpc with rfl | ⟨pid, jid, rfl⟩ <;>
      simp only [Shell.potential, Shell.jobs, Pc.adds, Shell.input] <;> omega
  · rw [heq] at htoRead ⊢
    rw [htodo, List.length_cons] at hpot
    refine rank_lt_of_toRead rfl ?_ htoRead
    rw [hpot]
    simp only [Shell.potential, Shell.jobs, Pc.adds, Shell.input]
    omega

theorem rank_execute {argv : List (List Byte)} {background : Bool} (r : Option ℤ)
    (h : s.pc = .execute argv background) : (s.execute argv background r).rank < s.rank := by
  have hpot : s.potential = s.joblist.length + s.input.length + 1 := by
    simp [Shell.potential, Shell.jobs, Pc.adds, h]
  have htoRead := toRead_execute r h
  cases r with
  | none =>
    refine rank_lt_of_toRead rfl ?_ htoRead
    rw [hpot]
    exact Nat.le_succ _
  | some pid =>
    refine rank_lt_of_toRead rfl ?_ htoRead
    rw [hpot]
    cases background <;>
      simp [Shell.potential, Shell.jobs, Pc.adds, Shell.execute, Shell.input] <;> omega

theorem rank_waited {pid : ℤ} {jid : Option ℕ} (h : s.pc = .waitpid pid jid) :
    (s.waited pid jid).rank < s.rank := by
  refine rank_lt_of_toRead rfl ?_ (toRead_waited h)
  simp only [Shell.potential, Shell.jobs, Pc.adds, h]
  exact le_rfl

theorem rank_terminate {pid : ℤ} {found : Bool} (hkeep : ¬GivesBack s (.terminate pid found))
    (h : pid ∈ s.running) : (s.terminate pid found).rank < s.rank := by
  have hinput := input_terminate hkeep
  refine rank_lt_of_toRead hinput (le_of_eq ?_) (toRead_terminate found h)
  rw [Shell.potential, Shell.potential, hinput]
  rfl

/-- **Progress.** As long as the shell is not hung every move lowers the rank. -/
theorem rank_step (h : stepKeeping a s = some t) (hung : ¬s.Hung) : t.rank < s.rank := by
  obtain ⟨hkeep, hstep⟩ := stepKeeping_eq_some.mp h
  cases trans_of_step hstep with
  | readcommands hpc => exact rank_readcommands hpc
  | swallow hpc => exact rank_swallow hpc hung
  | dispatch hpc => exact rank_dispatch hpc
  | removeStopped hpc => exact rank_removeStopped hpc
  | waited hpc => exact rank_waited hpc
  | fork hpc => exact rank_execute _ hpc
  | terminate hpid => exact rank_terminate hkeep hpid

/-! ## Termination -/

/-- Whatever the children and `fork` do, `readcommands` returns or the shell exits after a bounded
number of moves, and until then some move is possible. -/
def Terminates (sys : Act → Shell → Option Shell) (s : Shell) : Prop :=
  ∃ n, Within sys (fun _ ↦ True) Shell.Done n s

/-- Until it is done the shell can move, or the child can for which it waits. -/
theorem exists_step (h : ¬s.Done) : ∃ a t, stepKeeping a s = some t := by
  have hmove : ∀ {a t}, ¬GivesBack s a → step a s = some t → ∃ a t, stepKeeping a s = some t :=
    fun hkeep hstep ↦ ⟨_, _, stepKeeping_eq_some.mpr ⟨hkeep, hstep⟩⟩
  cases hpc : s.pc with
  | loop => exact hmove (a := .shell) (t := s.readcommands) id (by rw [step, hpc])
  | swallow => exact hmove (a := .shell) (t := s.swallow) id (by rw [step, hpc])
  | line => exact hmove (a := .shell) (t := s.dispatch) id (by rw [step, hpc])
  | removeStopped caller kept todo =>
    exact hmove (a := .shell) (t := s.removeStopped caller kept todo) id (by rw [step, hpc])
  | execute argv background =>
    refine hmove (a := .fork none) (t := s.execute argv background none) id ?_
    rw [step, hpc]
    exact if_pos fun pid hpid ↦ by cases hpid
  -- while the child runs only its end can be next
  | waitpid pid jid =>
    by_cases hpid : pid ∈ s.running
    · exact hmove (a := .terminate pid true) (fun hback ↦ absurd hback.1 (by decide))
        (if_pos hpid)
    · refine hmove (a := .shell) (t := s.waited pid jid) id ?_
      rw [step, hpc]
      exact if_neg hpid
  | returned => exact absurd (.inl hpc) h
  | exited => exact absurd (.inr hpc) h

theorem not_done_of_hung (h : s.Hung) : ¬s.Done := by
  rintro (hpc | hpc)
  · rwa [Shell.Hung, hpc] at h
  · rwa [Shell.Hung, hpc] at h

theorem terminates_iff_not_hung : Terminates stepKeeping s ↔ ¬s.Hung := by
  constructor
  · rintro ⟨n, hn⟩ hung
    -- a hung shell stays hung, and so is never done
    exact not_within_of_closed (P := Shell.Hung) (fun _ ↦ not_done_of_hung)
      (fun hs hstep ↦ (hung_step hstep).mpr hs) hung hn
  · intro hung
    refine ⟨s.rank + 1, within_of_rank (P := fun s ↦ ¬s.Hung) Shell.rank
      (fun _ hdone ↦ exists_step hdone) (fun hs _ hstep ↦ ⟨trivial, .inr ⟨?_, ?_⟩⟩) hung
      (Nat.lt_succ_self _)⟩
    · exact fun ht ↦ hs ((hung_step hstep).mp ht)
    · exact rank_step hstep hs

/-- The outer loop reads a line on which the shell exits: the first piece, or one behind a piece
with a newline. -/
def ExitLine (cs : List (List Byte)) : Prop :=
  ∃ pre c post, cs = pre ++ c :: post ∧ (∀ d, pre.getLast? = some d → Finished d) ∧ Finished c ∧
    Exits c

theorem exitAhead_iff (outer : Prop) (cs : List (List Byte)) : ExitAhead outer cs ↔
    ∃ pre c post, cs = pre ++ c :: post ∧ (pre = [] → outer) ∧
      (∀ d, pre.getLast? = some d → Finished d) ∧ Finished c ∧ Exits c := by
  induction cs generalizing outer with
  | nil =>
    refine iff_of_false id ?_
    rintro ⟨pre, c, post, hcs, -⟩
    exact absurd hcs (by simp)
  | cons c cs ih =>
    rw [ExitAhead, ih]
    constructor
    -- the line is the first piece, or lies behind it
    · rintro (⟨houter, hfin, hexit⟩ | ⟨pre, d, post, rfl, hpre, hlast, hfin, hexit⟩)
      · exact ⟨[], c, cs, rfl, fun _ ↦ houter, by simp, hfin, hexit⟩
      · refine ⟨c :: pre, d, post, rfl, fun h ↦ absurd h (List.cons_ne_nil _ _), fun e he ↦ ?_,
          hfin, hexit⟩
        cases pre with
        | nil =>
          obtain rfl : c = e := by simpa using he
          exact hpre rfl
        | cons f pre => exact hlast e (by rwa [List.getLast?_cons_cons] at he)
    · rintro ⟨pre, d, post, hcs, hpre, hlast, hfin, hexit⟩
      cases pre with
      | nil =>
        obtain ⟨rfl, rfl⟩ := List.cons.inj hcs
        exact .inl ⟨hpre rfl, hfin, hexit⟩
      | cons e pre =>
        obtain ⟨rfl, rfl⟩ := List.cons.inj hcs
        refine .inr ⟨pre, d, post, rfl, ?_, fun f hf ↦ ?_, hfin, hexit⟩
        · rintro rfl
          exact hlast c rfl
        · refine hlast f ?_
          cases pre with
          | nil => cases hf
          | cons g pre => rwa [List.getLast?_cons_cons]

/-- The last piece of the input has a newline, or the shell exits on an earlier line. -/
def Ends (input : List Byte) : Prop :=
  (∀ c, (pieces input).getLast? = some c → Finished c) ∨ ExitLine (pieces input)

/-! ## Input that cannot be given back -/

theorem seekable_step (hstep : step a s = some t) : t.stream.seekable = s.stream.seekable := by
  cases trans_of_step hstep with
  | readcommands hpc =>
    have hget := s.stream.seekable_fgets
    rw [Shell.readcommands]
    split
    · rename_i f heq
      exact (congrArg (fun r ↦ r.2.seekable) heq).symm.trans hget
    · rename_i line f heq
      exact (congrArg (fun r ↦ r.2.seekable) heq).symm.trans hget
  | swallow hpc =>
    have hget := s.stream.seekable_fgets
    rw [Shell.swallow]
    split
    · rfl
    split
    · rename_i f heq
      exact (congrArg (fun r ↦ r.2.seekable) heq).symm.trans hget
    · rename_i line f heq
      exact (congrArg (fun r ↦ r.2.seekable) heq).symm.trans hget
  | dispatch hpc =>
    rcases dispatch_cases s with ⟨-, heq⟩ | ⟨-, pc, reports, -, heq⟩
    · rw [heq]
      rfl
    · rw [heq]
  | @removeStopped caller kept todo hpc =>
    rcases removeStopped_cases s caller kept todo with
      ⟨-, pc, reports, -, heq⟩ | ⟨n, todo', -, kept', zombies, -, heq⟩
    · rw [heq]
    · rw [heq]
  | waited hpc => rfl
  | @fork argv background r hpc hr =>
    cases r with
    | none => rfl
    | some pid => rfl
  | @terminate pid found hpid =>
    cases found with
    | true => rfl
    | false => exact s.stream.seekable_giveBack _

/-- Nothing is given back to a pipe or a terminal. -/
theorem terminates_stepKeeping_iff (h : s.stream.seekable = false) :
    Terminates stepKeeping s ↔ Terminates step s := by
  refine exists_congr fun n ↦ within_congr (P := fun s ↦ s.stream.seekable = false)
    (fun u hu a ↦ if_neg ?_) (fun hu hstep ↦ (seekable_step hstep).trans hu) h
  cases a with
  | terminate pid found =>
    rintro ⟨-, hseek, -⟩
    rw [hu] at hseek
    cases hseek
  | shell => exact id
  | fork r => exact id

/-- The shell survives an input, as long as nothing is given back, if and only if it ends. -/
theorem terminates_iff_ends (seekable : Bool) (input : List Byte) :
    Terminates stepKeeping (start seekable input) ↔ Ends input := by
  have hexit : ExitAhead True (pieces input) ↔ ExitLine (pieces input) := by
    rw [exitAhead_iff]
    simp only [implies_true, true_and]
    rfl
  rw [terminates_iff_not_hung, Ends, ← hexit]
  change ¬Unending True (pieces input) ↔ _
  rw [Unending, not_and_or, not_not]
  refine or_congr ?_ Iff.rfl
  constructor
  · intro h c hc
    by_contra hfin
    exact h ⟨c, hc, hfin⟩
  · rintro h ⟨c, hc, hfin⟩
    exact hfin (h c hc)

/-- **Which inputs the shell survives.** `readcommands` returns or exits exactly if the last piece
that `fgets` cuts off has a newline before any NUL, or a line before it is an `exit`: in the runs in
which no child gives back what it has not read, and in all runs where it cannot. -/
theorem readcommands_terminates_iff (input : List Byte) :
    (∀ seekable, Terminates stepKeeping (start seekable input) ↔ Ends input) ∧
      (Terminates step (start false input) ↔ Ends input) :=
  ⟨fun seekable ↦ terminates_iff_ends seekable input,
    (terminates_stepKeeping_iff rfl).symm.trans (terminates_iff_ends false input)⟩

/-! ## Three unknown commands -/

/-- The shell has read up to here and has no children. -/
structure Idle (f : Stream) (s : Shell) : Prop where
  pc : s.pc = .loop
  stream : s.stream = f
  running : s.running = ∅
  zombies : s.zombies = ∅

/-- `x` -/
def unknownLine : List Byte := [0x78, newline]

/-- The child does not find `x`, and gives back all that the shell has in its buffer. -/
theorem Idle.unknown {f g : Stream} (h : Idle f s) (hget : f.fgets = (some unknownLine, g)) :
    ∃ tr t, Run step s tr t ∧ tr ≠ [] ∧ (∀ m ∈ tr, ¬m.src.Done) ∧
      Idle (g.giveBack g.buffer.length) t := by
  obtain ⟨hpc, hstream, hrun, hzombies⟩ := h
  let s₁ : Shell := { s with stream := g, commands := unknownLine, pc := .line }
  let s₂ := s₁.goto (.execute [[0x78]] false)
  let s₃ := s₂.execute [[0x78]] false (some 7)
  let s₄ := s₃.terminate 7 false
  have h₁ : step .shell s = some s₁ := by
    rw [step, hpc]
    dsimp only
    rw [Shell.readcommands, hstream, hget]
    rfl
  have h₂ : step .shell s₁ = some s₂ := rfl
  have h₃ : step (.fork (some 7)) s₂ = some s₃ := by
    refine if_pos fun pid hpid ↦ ?_
    obtain rfl := Option.some.inj hpid
    refine ⟨by decide, ?_, ?_⟩
    · change (7 : ℤ) ∉ s.running
      rw [hrun]
      exact Finset.notMem_empty _
    · change (7 : ℤ) ∉ s.zombies
      rw [hzombies]
      exact Finset.notMem_empty _
  have h₄ : step (.terminate 7 false) s₃ = some s₄ := if_pos (Finset.mem_insert_self _ _)
  have h₅ : step .shell s₄ = some (s₄.waited 7 none) := if_neg (Finset.notMem_erase _ _)
  have hdone : ∀ m ∈ [(⟨s, .shell, s₁⟩ : Move Shell Act), ⟨s₁, .shell, s₂⟩,
      ⟨s₂, .fork (some 7), s₃⟩, ⟨s₃, .terminate 7 false, s₄⟩,
      ⟨s₄, .shell, s₄.waited 7 none⟩], ¬m.src.Done := by
    intro m hm hd
    simp only [List.mem_cons, List.not_mem_nil, or_false] at hm
    rcases hm with rfl | rfl | rfl | rfl | rfl
    · rcases hd with hd | hd
      · cases hpc.symm.trans hd
      · cases hpc.symm.trans hd
    all_goals rcases hd with hd | hd <;> cases hd
  refine ⟨_, _, .cons h₁ (.cons h₂ (.cons h₃ (.cons h₄ (.single h₅)))), List.cons_ne_nil _ _, hdone,
    rfl, ?_, ?_, ?_⟩
  · change g.giveBack (Function.update s.copies 7 g.buffer.length 7) = _
    rw [Function.update_self]
  · change (insert 7 s.running).erase 7 = ∅
    rw [hrun]
    rfl
  · change (insert 7 s.zombies).erase 7 = ∅
    rw [hzombies]
    rfl

/-- A single letter without a newline; and three unknown commands in a batch file, whose children
give back first two lines and then one. -/
theorem not_readcommands_terminates : ¬Terminates step (start false [0x61]) ∧
    ¬Terminates step (start true (unknownLine ++ unknownLine ++ unknownLine)) := by
  constructor
  · have hpieces : pieces [0x61] = [[0x61]] := by
      have hfgets : fgets [0x61] = some ([0x61], []) := by decide
      rw [pieces_of_some hfgets, pieces_of_none (by decide)]
    have hfin : ¬Finished [0x61] := by decide
    rw [← terminates_stepKeeping_iff rfl, terminates_iff_ends, Ends, hpieces]
    rintro (hlast | ⟨pre, c, post, hcs, -, hc, -⟩)
    · exact hfin (hlast _ rfl)
    · have hmem : c ∈ [[(0x61 : Byte)]] := by
        rw [hcs]
        exact List.mem_append_right _ List.mem_cons_self
      rw [List.mem_singleton.mp hmem] at hc
      exact hfin hc
  · rintro ⟨n, hn⟩
    refine not_within_of_loop (P := Idle (fopen true (unknownLine ++ unknownLine ++ unknownLine)))
      (fun s hs ↦ ?_) ⟨rfl, rfl, rfl, rfl⟩ hn
    obtain ⟨tr₁, s₁, hrun₁, hne, hdone₁, hs₁⟩ := hs.unknown (g := ⟨_, true, 6, _, false⟩) rfl
    obtain ⟨tr₂, s₂, hrun₂, -, hdone₂, hs₂⟩ := hs₁.unknown (g := ⟨_, true, 2, _, false⟩) rfl
    obtain ⟨tr₃, s₃, hrun₃, -, hdone₃, hs₃⟩ := hs₂.unknown (g := ⟨_, true, 0, _, false⟩) rfl
    refine ⟨tr₁ ++ tr₂ ++ tr₃, s₃, (hrun₁.append hrun₂).append hrun₃, by simp [hne], ?_, hs₃⟩
    rw [List.forall_mem_append, List.forall_mem_append]
    exact ⟨⟨hdone₁, hdone₂⟩, hdone₃⟩

end CS537.Mysh
