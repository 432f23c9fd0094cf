import CS537.Lib.Strings
import CS537.Mysh.Parse
import CS537.Mysh.Termination

/-!
# The buffers of the shell

A line goes through `commands`, `argv` and `str`. `commands` has room for the longest piece that
`fgets` returns and its NUL; `str` is shorter by one, and some messages put a word of the line
between other characters. A model of `readcommands` for one line, in which a store out of bounds
ends everything, says which lines fit.
-/

namespace CS537.Mysh

open Strings Words

namespace Arrays

/-- `sprintf(str, ...)`: the text and a NUL go into `str[LSIZE]`. -/
def sprintf (text : List Byte) : Option Unit := if text.length < lsize then some () else none

/-- `fgets(commands, LSIZE+1, fileno)` where it gets this piece. -/
def fgets (commands line : List Byte) : Option (List Byte) :=
  if line.length < commands.length then
    some (line ++ 0 :: commands.drop (line.length + 1))
  else none

/-- `sprintf(str, "%s", commands)`. -/
def echo (commands : List Byte) : Option Unit := sprintf (cstr commands)

/-- The inner loop. At the end of the input it spins: `fgets` leaves `commands` as it is, and the
same is printed again and again. -/
def swallow : List (List Byte) → List Byte → Option (List Byte)
  | [], commands => some commands
  | line :: lines, commands =>
    if Finished commands then some commands
    else do
      let commands ← fgets commands line
      echo commands
      swallow lines commands

/-- An entry of the job list. -/
structure Entry where
  jid : BitVec 64
  pid : ℤ
  argv : List (List Byte)
  pos : 0 < pid

/-- What comes of `fork`, and of `execvp` in the child. -/
inductive Started
  | forkError
  | notFound
  | running
  deriving DecidableEq

/-- What the shell finds while it works on the line: the job list as `removeStoppedJobs` leaves it
with the largest jid so far, how long `waitpid` has taken, and what comes of a new process. -/
structure Env where
  joblist : List Entry
  maxJid : BitVec 64
  timewait : BitVec 64
  started : Started

variable (env : Env)

/-- `printList`. -/
def printList : List Entry → Option Unit
  | [] => some ()
  | e :: es => do
    sprintf (decimal e.jid.toNat ++ ascii " :")
    e.argv.forM fun arg ↦ sprintf (ascii " " ++ arg)
    printList es

/-- `jid2pid`. -/
def jid2pid (jid : BitVec 64) : ℤ :=
  if env.maxJid < jid then -1
  else
    match env.joblist.find? fun e ↦ e.jid = jid with
    | none => -2
    | some e => e.pid

/-- `myw`. -/
def myw (arg : List Byte) : Option Unit :=
  let (v, endstr) := strtol arg
  let jid := BitVec.ofInt 64 v
  let pid := jid2pid env jid
  if endstr ≠ [] ∨ pid = -1 then sprintf (ascii "Invalid jid " ++ arg ++ ascii "\n")
  else
    let timewait := if pid = -2 then 0 else env.timewait
    sprintf (signed timewait ++ ascii " : Job " ++ decimal jid.toNat ++ ascii " terminated\n")

/-- `execute`, and its child if there is one. -/
def execute (arg : List Byte) : Option Unit :=
  match env.started with
  | .forkError => sprintf (ascii "ERROR: Fork error.\n")
  | .notFound => sprintf (arg ++ ascii ": Command not found\n")
  | .running => some ()

/-- What `readcommands` does with the arguments. -/
def dispatch (args : List (List Byte)) : Option Unit :=
  match args with
  | [] => some ()
  | cmd :: args =>
    if cmd = jCommand ∧ args = [] then printList env.joblist
    else if cmd = mywCommand ∧ args.length = 1 then myw env (args.headD [])
    else if cmd = exitCommand ∧ args = [] then some ()
    else execute env cmd

/-- The strings that `argv` points to, up to the NULL. -/
def strings (commands : List Byte) : List (Option ℕ) → List (List Byte)
  | [] | none :: _ => []
  | some p :: argv => strAt commands p :: strings commands argv

/-- `readcommands` for one line, whose pieces `fgets` gets; `argc` and `commands` hold anything. -/
def readcommands (interactive : Bool) (commands : List Byte) (argc : ℤ) :
    List (List Byte) → Option Unit
  | [] => some ()
  | line :: lines => do
    let commands ← fgets commands line
    if Finished commands then
      if interactive = false then echo commands
      if commands[0]? = some newline then pure ()
      else
        let r ← parse commands argc (List.replicate argcMax none) 0
        if r.ret ≤ 0 then pure () else dispatch env (strings r.commands r.argv)
    else
      echo commands
      let commands ← swallow lines commands
      if Finished commands then
        let commands ← store commands ((cstr commands).length - 1) 0
        echo commands
        sprintf (ascii "An error has occurred\n")

/-! ## Which lines fit -/

/-- The pieces of a line that is printed because its first piece has no newline. -/
def unfinished : List (List Byte) → List (List Byte)
  | [] => []
  | line :: lines => line :: if Finished line then [] else unfinished lines

/-- The messages about these arguments fit into `str`. -/
def Reported : List (List Byte) → Prop
  | [] => True
  | cmd :: args =>
    if cmd = jCommand ∧ args = [] then
      ∀ e ∈ env.joblist, ∀ arg ∈ e.argv, arg.length + 1 < lsize
    else if cmd = mywCommand ∧ args.length = 1 then
      (strtol (args.headD [])).2 ≠ [] ∨
          env.maxJid < BitVec.ofInt 64 (strtol (args.headD [])).1 →
        (args.headD []).length + 13 < lsize
    else if cmd = exitCommand ∧ args = [] then True
    else env.started = .notFound → cmd.length + 20 < lsize

/-- The line fits into the buffers. -/
def Fits (interactive : Bool) : List (List Byte) → Prop
  | [] => True
  | line :: lines =>
    if Finished line then
      (interactive = false → (cstr line).length < lsize) ∧
        (words isDelim (cstr line)).length < argcMax ∧
        Reported env (words isDelim (withoutAmpersand (cstr line)))
    else ∀ l ∈ unfinished (line :: lines), (cstr l).length < lsize

/-! ## Messages -/

theorem length_decimal_le_twenty (n : BitVec 64) : (decimal n.toNat).length ≤ 20 :=
  length_decimal_le (n.isLt.trans (by decide))

theorem isSome_sprintf {text : List Byte} : (sprintf text).isSome ↔ text.length < lsize := by
  rw [sprintf]
  split_ifs with h
  · exact iff_of_true rfl h
  · exact iff_of_false nofun h

/-- One store after another. -/
theorem isSome_seq {α : Type} {o : Option Unit} {rest : Option α} :
    (o >>= fun _ ↦ rest).isSome ↔ o.isSome ∧ rest.isSome := by
  cases o with
  | none => exact iff_of_false nofun fun h ↦ nomatch h.1
  | some u => exact (and_iff_right rfl).symm

theorem isSome_forM {α : Type} {f : α → Option Unit} {l : List α} :
    (l.forM f).isSome ↔ ∀ x ∈ l, (f x).isSome := by
  induction l with
  | nil => exact iff_of_true rfl nofun
  | cons x l ih =>
    change (f x >>= fun _ ↦ l.forM f).isSome ↔ _
    rw [isSome_seq, ih, List.forall_mem_cons]

theorem isSome_printList {es : List Entry} :
    (printList es).isSome ↔ ∀ e ∈ es, ∀ arg ∈ e.argv, arg.length + 1 < lsize := by
  induction es with
  | nil => exact iff_of_true rfl nofun
  | cons e es ih =>
    have hjid : (decimal e.jid.toNat ++ ascii " :").length < lsize := by
      have hlen := length_decimal_le_twenty e.jid
      have hcolon : (ascii " :").length = 2 := by decide
      rw [List.length_append, lsize]
      omega
    have harg : ∀ arg : List Byte, (ascii " " ++ arg).length = arg.length + 1 := fun arg ↦ by
      rw [List.length_append, Nat.add_comm]
      rfl
    rw [printList, isSome_seq, isSome_seq, isSome_sprintf, isSome_forM, ih, List.forall_mem_cons]
    simp only [isSome_sprintf, harg]
    exact and_iff_right hjid

/-- Invalid arguments of `myw` are those that `jid2pid` finds too large, or not a number. -/
theorem jid2pid_eq_neg_one {jid : BitVec 64} : jid2pid env jid = -1 ↔ env.maxJid < jid := by
  rw [jid2pid]
  split_ifs with h
  · exact iff_of_true rfl h
  · split
    · exact iff_of_false (by decide) h
    · rename_i e _
      have := e.pos
      exact iff_of_false (by omega) h

theorem isSome_myw {arg : List Byte} : (myw env arg).isSome ↔
    ((strtol arg).2 ≠ [] ∨ env.maxJid < BitVec.ofInt 64 (strtol arg).1 →
      arg.length + 13 < lsize) := by
  rw [myw]
  simp only [jid2pid_eq_neg_one]
  by_cases h : (strtol arg).2 ≠ [] ∨ env.maxJid < BitVec.ofInt 64 (strtol arg).1
  · have hlen : (ascii "Invalid jid " ++ arg ++ ascii "\n").length = arg.length + 13 := by
      rw [List.length_append, List.length_append]
      have h1 : (ascii "Invalid jid ").length = 12 := by decide
      have h2 : (ascii "\n").length = 1 := by decide
      omega
    rw [if_pos h, isSome_sprintf, hlen]
    exact ⟨fun hlt _ ↦ hlt, fun hlt ↦ hlt h⟩
  · rw [if_neg h]
    refine iff_of_true (isSome_sprintf.mpr ?_) fun h' ↦ absurd h' h
    generalize (if jid2pid env (BitVec.ofInt 64 (strtol arg).1) = -2 then 0 else env.timewait) = n
    have h1 : (signed n).length ≤ 21 := length_signed_le n (by decide)
    have h2 := length_decimal_le_twenty (BitVec.ofInt 64 (strtol arg).1)
    have h3 : (ascii " : Job ").length = 7 := by decide
    have h4 : (ascii " terminated\n").length = 12 := by decide
    rw [List.length_append, List.length_append, List.length_append, lsize]
    omega

theorem isSome_execute {cmd : List Byte} :
    (execute env cmd).isSome ↔ (env.started = .notFound → cmd.length + 20 < lsize) := by
  rw [execute]
  cases env.started with
  | forkError => exact iff_of_true rfl nofun
  | notFound =>
    have hlen : (cmd ++ ascii ": Command not found\n").length = cmd.length + 20 := by
      rw [List.length_append]
      rfl
    simp only [isSome_sprintf, hlen, true_imp_iff]
  | running => exact iff_of_true rfl nofun

theorem isSome_dispatch {args : List (List Byte)} :
    (dispatch env args).isSome ↔ Reported env args := by
  cases args with
  | nil => exact iff_of_true rfl trivial
  | cons cmd args =>
    rw [dispatch, Reported]
    split_ifs
    · exact isSome_printList
    · exact isSome_myw env
    · exact iff_of_true rfl trivial
    · exact isSome_execute env

/-! ## The pieces -/

/-- A piece that `fgets` can return: not too long, and with a newline at the end only. -/
structure Piece (line : List Byte) : Prop where
  length : line.length ≤ lsize
  newline : line.head? = some newline → line = [newline]

theorem length_readLine_le (n : ℕ) (input : List Byte) : (readLine n input).1.length ≤ n := by
  induction n generalizing input with
  | zero => exact le_rfl
  | succ n ih =>
    cases input with
    | nil => exact Nat.zero_le _
    | cons b input =>
      rw [readLine]
      split_ifs
      · exact Nat.succ_le_succ (Nat.zero_le n)
      · exact Nat.succ_le_succ (ih input)

theorem head?_readLine {n : ℕ} {input : List Byte} (h : (readLine n input).1.head? = some newline) :
    (readLine n input).1 = [newline] := by
  cases n with
  | zero => cases h
  | succ n =>
    cases input with
    | nil => cases h
    | cons b input =>
      rw [readLine] at h ⊢
      split_ifs at h ⊢ with hb
      · rw [hb]
      · exact absurd (Option.some.inj h) hb

theorem piece_of_mem {input line : List Byte} (h : line ∈ pieces input) : Piece line := by
  generalize hn : input.length = n
  induction n using Nat.strongRecOn generalizing input with
  | ind n ih =>
    cases hget : Mysh.fgets input with
    | none =>
      rw [pieces_of_none hget] at h
      cases h
    | some r =>
      obtain ⟨first, rest⟩ := r
      rw [pieces_of_some hget] at h
      rcases List.mem_cons.mp h with rfl | hmem
      · rw [Mysh.fgets] at hget
        obtain ⟨-, hread⟩ := Option.ite_none_left_eq_some.mp hget
        have hline := congrArg Prod.fst (Option.some.inj hread)
        rw [← show (readLine lsize input).1 = line from hline]
        exact ⟨length_readLine_le _ _, head?_readLine⟩
      · exact ih rest.length (hn ▸ length_lt_of_fgets hget) hmem rfl

/-- The line in `commands`. -/
structure Loaded (commands line : List Byte) : Prop where
  length : commands.length = lsize + 1
  zero : 0 ∈ commands
  cstr : cstr commands = cstr line
  head : commands[0]? = some newline ↔ line.head? = some newline

variable {commands line : List Byte} {lines : List (List Byte)}

theorem cstr_append (line l : List Byte) : Mysh.cstr (line ++ 0 :: l) = Mysh.cstr line := by
  induction line with
  | nil => rfl
  | cons b line ih =>
    rw [List.cons_append, Mysh.cstr, Mysh.cstr, List.takeWhile_cons, List.takeWhile_cons]
    split_ifs
    · exact congrArg (b :: ·) ih
    · rfl

/-- `commands` has room for every piece. -/
theorem fgets_spec (hcommands : commands.length = lsize + 1) (hline : Piece line) :
    ∃ commands', fgets commands line = some commands' ∧ Loaded commands' line := by
  have hle := hline.length
  refine ⟨_, if_pos (by omega), ?_, ?_, cstr_append _ _, ?_⟩
  · rw [List.length_append, List.length_cons, List.length_drop]
    omega
  · exact List.mem_append_right line List.mem_cons_self
  · cases line with
    | nil => exact iff_of_false (fun h ↦ absurd (Option.some.inj h) (by decide)) nofun
    | cons b line => rfl

theorem Loaded.finished (h : Loaded commands line) : Finished commands ↔ Finished line := by
  rw [Finished, Finished, h.cstr]

theorem Loaded.echo (h : Loaded commands line) :
    (echo commands).isSome ↔ (Mysh.cstr line).length < lsize := by
  rw [Arrays.echo, isSome_sprintf, h.cstr]

/-- **The inner loop.** It prints every piece up to the newline. -/
theorem swallow_spec (h : Loaded commands line) (hlines : ∀ l ∈ lines, Piece l) :
    ((swallow lines commands).isSome ↔
      ∀ l ∈ if Finished line then [] else unfinished lines, (Mysh.cstr l).length < lsize) ∧
    ∀ commands', swallow lines commands = some commands' → (Mysh.cstr line).length < lsize →
      ∃ line', Loaded commands' line' ∧ (Mysh.cstr line').length < lsize := by
  induction lines generalizing commands line with
  | nil =>
    refine ⟨iff_of_true rfl ?_, fun commands' heq hlt ↦ ?_⟩
    · split_ifs <;> exact nofun
    · obtain rfl := Option.some.inj heq
      exact ⟨line, h, hlt⟩
  | cons next lines ih =>
    obtain ⟨hnext, hlines⟩ := List.forall_mem_cons.mp hlines
    by_cases hfin : Finished line
    · rw [swallow, if_pos (h.finished.mpr hfin), if_pos hfin]
      refine ⟨iff_of_true rfl nofun, fun commands' heq hlt ↦ ?_⟩
      obtain rfl := Option.some.inj heq
      exact ⟨line, h, hlt⟩
    · obtain ⟨commands₁, hfgets, hloaded⟩ := fgets_spec h.length hnext
      obtain ⟨hiff, hend⟩ := ih hloaded hlines
      rw [swallow, if_neg fun h' ↦ hfin (h.finished.mp h'), if_neg hfin, hfgets, unfinished,
        List.forall_mem_cons]
      simp only [Option.bind_eq_bind, Option.bind_some]
      refine ⟨isSome_seq.trans (and_congr hloaded.echo hiff), fun commands' heq _ ↦ ?_⟩
      obtain ⟨u, hu, hrest⟩ := Option.bind_eq_some_iff.mp heq
      exact hend commands' hrest (hloaded.echo.mp (by rw [hu]; rfl))

/-! ## The whole line -/

/-- A string ends at a NUL. -/
theorem length_cstr_le {l : List Byte} {k : ℕ} (h : l[k]? = some 0) :
    (Mysh.cstr l).length ≤ k := by
  by_contra hlt
  have hpre : Mysh.cstr l <+: l := List.takeWhile_prefix _
  obtain ⟨hk, hget⟩ := List.getElem?_eq_some_iff.mp h
  have hmem := List.getElem_mem (not_le.mp hlt)
  rw [hpre.getElem (not_le.mp hlt), hget] at hmem
  exact zero_notMem_cstr l hmem

/-- A line that does not end in its first piece, after all of it has been read. -/
theorem isSome_error (h : Loaded commands line) (hshort : (Mysh.cstr line).length < lsize) :
    (do
      let commands ← store commands ((Mysh.cstr commands).length - 1) 0
      echo commands
      sprintf (ascii "An error has occurred\n")).isSome := by
  have hlt : (Mysh.cstr commands).length - 1 < commands.length := by
    rw [h.cstr, h.length]
    omega
  rw [store, if_pos hlt]
  refine isSome_seq.mpr ⟨isSome_sprintf.mpr ?_, isSome_sprintf.mpr (by decide)⟩
  have hle := length_cstr_le (List.getElem?_set_self (a := (0 : Byte)) hlt)
  rw [h.cstr] at hle ⊢
  omega

/-- The arguments that `parse` has left in `argv`. -/
theorem strings_of_yields {r : Parsed} {args : List (List Byte)} (h : Yields r args) :
    strings r.commands r.argv = args := by
  obtain ⟨ps, rest, hargv, hps⟩ := h.argv
  rw [hargv, ← hps]
  clear hargv hps
  induction ps with
  | nil => rfl
  | cons p ps ih => exact congrArg (strAt r.commands p :: ·) ih

theorem isSome_parse (h : Loaded commands line) (argc : ℤ)
    (hne : words isDelim (Mysh.cstr line) ≠ []) :
    (do
      let r ← parse commands argc (List.replicate argcMax none) 0
      if r.ret ≤ 0 then pure () else dispatch env (strings r.commands r.argv)).isSome ↔
    (words isDelim (Mysh.cstr line)).length < argcMax ∧
      Reported env (words isDelim (withoutAmpersand (Mysh.cstr line))) := by
  rw [← h.cstr] at hne ⊢
  obtain ⟨hsome, hnone⟩ := parse_spec argc (List.replicate argcMax none) 0 h.zero hne
  rw [List.length_replicate] at hsome hnone
  by_cases hroom : (words isDelim (Mysh.cstr commands)).length < argcMax
  · obtain ⟨r, hr, hyields, -⟩ := hsome hroom
    rw [hr]
    refine Iff.trans ?_ (and_iff_right hroom).symm
    simp only [Option.bind_eq_bind, Option.bind_some, strings_of_yields hyields, hyields.ret]
    by_cases hargs : words isDelim (withoutAmpersand (Mysh.cstr commands)) = []
    · rw [hargs]
      exact iff_of_true rfl trivial
    · have hpos := List.length_pos_iff.mpr hargs
      rw [if_neg (by omega)]
      exact isSome_dispatch env
  · rw [hnone (not_lt.mp hroom)]
    exact iff_of_false nofun fun hand ↦ hroom hand.1

/-- A line in one piece. -/
theorem isSome_line (h : Loaded commands line) (hline : Piece line) (argc : ℤ) :
    (if commands[0]? = some newline then pure ()
      else do
        let r ← parse commands argc (List.replicate argcMax none) 0
        if r.ret ≤ 0 then pure () else dispatch env (strings r.commands r.argv)).isSome ↔
    (words isDelim (Mysh.cstr line)).length < argcMax ∧
      Reported env (words isDelim (withoutAmpersand (Mysh.cstr line))) := by
  by_cases hnil : words isDelim (Mysh.cstr line) = []
  · have hargs : words isDelim (withoutAmpersand (Mysh.cstr line)) = [] := by
      obtain ⟨-, hlast⟩ | ⟨init, t, c, hwords, -⟩ := lastChar_cases (Mysh.cstr line)
      · rw [withoutAmpersand, hlast, if_neg (by simp), hnil]
      · exact absurd (hnil.symm.trans hwords).symm (List.concat_ne_nil _ _)
    rw [hnil, hargs]
    refine iff_of_true ?_ ⟨by decide, trivial⟩
    split_ifs
    · rfl
    · rw [parse_blank h.zero (by rw [List.length_replicate]; decide) (by rw [h.cstr]; exact hnil)]
      rfl
  · rw [if_neg fun hhead ↦ ?_]
    · exact isSome_parse env h argc hnil
    · rw [hline.newline (h.head.mp hhead)] at hnil
      exact hnil (by decide)

/-- **One line in the buffers of the shell.** -/
theorem isSome_readcommands (interactive : Bool) {input : List Byte} (argc : ℤ)
    (hcommands : commands.length = lsize + 1) :
    (readcommands env interactive commands argc (pieces input)).isSome ↔
      Fits env interactive (pieces input) := by
  have hpieces : ∀ l ∈ pieces input, Piece l := fun l ↦ piece_of_mem
  generalize pieces input = lines at hpieces
  cases lines with
  | nil => exact iff_of_true rfl trivial
  | cons line lines =>
    obtain ⟨hline, hlines⟩ := List.forall_mem_cons.mp hpieces
    obtain ⟨commands₁, hfgets, hloaded⟩ := fgets_spec hcommands hline
    rw [readcommands, Fits, hfgets]
    simp only [Option.bind_eq_bind, Option.bind_some]
    by_cases hfin : Finished line
    · rw [if_pos (hloaded.finished.mpr hfin), if_pos hfin]
      cases interactive with
      | true =>
        refine Iff.trans ?_ (and_iff_right nofun).symm
        exact isSome_line env hloaded hline argc
      | false =>
        refine isSome_seq.trans (and_congr ?_ (isSome_line env hloaded hline argc))
        exact hloaded.echo.trans ⟨fun hlt _ ↦ hlt, fun hlt ↦ hlt rfl⟩
    · rw [if_neg fun h' ↦ hfin (hloaded.finished.mp h'), if_neg hfin, unfinished,
        List.forall_mem_cons, if_neg hfin]
      refine isSome_seq.trans ((and_congr_left' hloaded.echo).trans
        (and_congr_right fun hshort ↦ ?_))
      obtain ⟨hiff, hend⟩ := swallow_spec hloaded hlines
      rw [if_neg hfin] at hiff
      rw [← hiff]
      cases hswallow : swallow lines commands₁ with
      | none => exact iff_of_false nofun nofun
      | some commands₂ =>
        obtain ⟨line', hloaded', hshort'⟩ := hend commands₂ hswallow hshort
        refine iff_of_true ?_ rfl
        simp only [Option.bind_some]
        split_ifs
        · exact isSome_error hloaded' hshort'
        · rfl

/-- **The buffers hold a line** if and only if it fits, whatever the input is from where the line
begins. -/
theorem buffers_hold_iff (env : Env) (interactive : Bool) (input commands : List Byte) (argc : ℤ)
    (hcommands : commands.length = lsize + 1) :
    (readcommands env interactive commands argc (pieces input)).isSome ↔
      Fits env interactive (pieces input) := isSome_readcommands env interactive argc hcommands

/-! ## Two lines -/

theorem readLine_line {l : List Byte} (hl : newline ∉ l) {n : ℕ} (hn : l.length < n) :
    readLine n (l ++ [newline]) = (l ++ [newline], []) := by
  induction l generalizing n with
  | nil =>
    obtain ⟨n, rfl⟩ := Nat.exists_eq_add_one.mpr hn
    rfl
  | cons b l ih =>
    obtain ⟨n, rfl⟩ := Nat.exists_eq_add_one.mpr (Nat.zero_lt_of_lt hn)
    rw [List.mem_cons, not_or] at hl
    rw [List.cons_append, readLine, if_neg (Ne.symm hl.1), ih hl.2 (Nat.lt_of_succ_lt_succ hn)]

/-- A line that `fgets` reads at once. -/
theorem pieces_line {l : List Byte} (hl : newline ∉ l) (hlen : l.length < lsize) :
    pieces (l ++ [newline]) = [l ++ [newline]] := by
  have hget : Mysh.fgets (l ++ [newline]) = some (l ++ [newline], []) := by
    rw [Mysh.fgets, if_neg (List.concat_ne_nil _ _), readLine_line hl hlen]
  rw [pieces_of_some hget, pieces_of_none rfl]

theorem cstr_line {l : List Byte} (hl : (0 : Byte) ∉ l) :
    Mysh.cstr (l ++ [newline]) = l ++ [newline] := by
  rw [Mysh.cstr, List.takeWhile_eq_self_iff]
  intro b hb
  rcases List.mem_append.mp hb with hb | hb
  · exact decide_eq_true fun h0 : b = 0 ↦ hl (h0 ▸ hb)
  · rw [List.mem_singleton.mp hb]
    rfl

/-- Nothing runs, and no command is found. -/
def noJobs : Env := ⟨[], 0, 0, .notFound⟩

/-- `a&` from a file -/
theorem buffers_hold_a : (readcommands noJobs false (List.replicate 514 0) 0
    (pieces ([0x61, ampersand] ++ [newline]))).isSome := by
  refine (buffers_hold_iff _ _ _ _ _ List.length_replicate).mpr ?_
  rw [pieces_line (by decide) (by decide)]
  have hfin : Finished ([0x61, ampersand] ++ [newline]) := by decide
  rw [Fits, if_pos hfin]
  refine ⟨fun _ ↦ by decide, by decide, ?_⟩
  have hargs : words isDelim (withoutAmpersand (Mysh.cstr ([0x61, ampersand] ++ [newline]))) =
      [[0x61]] := by decide
  rw [hargs]
  exact fun _ ↦ by decide

/-- The longest line, from a file: `str` has no room for its NUL. -/
theorem not_buffers_hold : ¬∀ (env : Env) (interactive : Bool) (input commands : List Byte)
    (argc : ℤ), commands.length = lsize + 1 →
      (readcommands env interactive commands argc (pieces input)).isSome := by
  intro h
  have hline : newline ∉ List.replicate 512 (0x61 : Byte) := fun hmem ↦
    absurd (List.eq_of_mem_replicate hmem) (by decide)
  have hzero : (0 : Byte) ∉ List.replicate 512 (0x61 : Byte) := fun hmem ↦
    absurd (List.eq_of_mem_replicate hmem) (by decide)
  have hlen : (List.replicate 512 (0x61 : Byte)).length < lsize := by
    rw [List.length_replicate]
    decide
  have hfits := (isSome_readcommands noJobs false 0 List.length_replicate).mp
    (h noJobs false (List.replicate 512 0x61 ++ [newline]) (List.replicate (lsize + 1) 0) 0
      List.length_replicate)
  have hcstr := cstr_line hzero
  have hfin : Finished (List.replicate 512 0x61 ++ [newline]) := by
    rw [Finished, hcstr]
    exact List.mem_append_right _ List.mem_cons_self
  rw [pieces_line hline hlen, Fits, if_pos hfin] at hfits
  have hshort := hfits.1 rfl
  rw [hcstr, List.length_append, List.length_replicate] at hshort
  exact absurd hshort (by decide)

end Arrays

end CS537.Mysh
