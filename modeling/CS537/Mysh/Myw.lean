import CS537.Mysh.Jobs

/-!
# What `myw` answers

`myw` looks the number up in three steps: `jid2pid` compares it, as an `unsigned long`, with the
largest jid; it purges the list; it searches the list, and takes a jid without an entry for that of
a job that is over. No job has the jid 0, which passes the first step.
-/

namespace CS537.Mysh

open Transition

/-- The number that `myw` looks up. -/
def mywJid (w : List Byte) : ℕ := ((strtol w).1 % 2 ^ 64).toNat

/-- The shell is about to run `myw w`. -/
def Shell.Myw (s : Shell) (w : List Byte) : Prop :=
  s.pc = .line ∧ s.commands.head? ≠ some newline ∧
    ∃ background, parse s.commands = some ([mywCommand, w], background)

/-! ## The right answer -/

/-- The pids that `fork` has returned, job by job. -/
def forked (tr : List (Move Shell Act)) : List ℤ :=
  tr.filterMap fun m ↦
    match m.act with
    | .fork r => r
    | _ => none

/-- No pid has been used twice. -/
def NoReuse (tr : List (Move Shell Act)) : Prop := (forked tr).Nodup

/-- The word is a number and the jid of a job. -/
def IsJid (started : ℕ) (w : List Byte) : Prop :=
  (strtol w).2 = [] ∧ 1 ≤ (strtol w).1 ∧ (strtol w).1 ≤ started

/-- The shell has waited for the process. -/
def Waits (tr : List (Move Shell Act)) (pid : ℤ) : Prop :=
  ∃ m ∈ tr, ∃ jid, m.src.pc = .waitpid pid jid

/-- The report is right for what has happened before the line and until the report. It names a job
that is over by then, and the shell has waited for no other process than that of the job, and only
if the job was live before the line. -/
structure Right (before after : History) (w : List Byte) (waits : ℤ → Prop) (r : Report) :
    Prop where
  invalid : ¬IsJid before.started w → r = .invalid w ∧ ∀ pid, ¬waits pid
  terminated : IsJid before.started w → ∃ jid : ℕ, (jid : ℤ) = (strtol w).1 ∧
    r = .terminated jid ∧ (∀ j ∈ after.live, j.jid ≠ jid) ∧
      ∀ pid, waits pid → ∃ j ∈ before.live, j.jid = jid ∧ j.pid = pid

/-- Whatever the children do meanwhile, the shell comes back to the outer loop; when it does it has
reported once, and rightly. -/
def AnswersRight (tr : List (Move Shell Act)) (s : Shell) (w : List Byte) : Prop :=
  (∃ n, Within step (fun _ ↦ True) (fun u ↦ u.pc = .loop) n s) ∧
    ∀ tr' u, Run step s tr' u → (∀ m ∈ tr', m.src.pc ≠ .loop) → u.pc = .loop →
      ∃ r, u.reports = s.reports ++ [r] ∧
        Right (history tr) (history (tr ++ tr')) w (Waits tr') r

/-! ## Jids and pids -/

variable {s t u : Shell} {a : Act} {h : History} {w : List Byte} {ps : List ℤ}

/-- The jids count the jobs, and the pid of an entry is the one that `fork` has returned for it. -/
structure Numbered (ps : List ℤ) (h : History) (s : Shell) : Prop where
  jid : s.jid = ps.length
  maxJid : s.maxJid = ps.length
  listed : ∀ n ∈ s.listed, 0 < n.jid ∧ ps[n.jid - 1]? = some n.pid
  live : ∀ j ∈ h.live, 0 < j.jid ∧ ps[j.jid - 1]? = some j.pid

/-- A move that starts no job. -/
theorem Numbered.of_subset {h' : History} (hs : Numbered ps h s) (hjid : t.jid = s.jid)
    (hmax : t.maxJid = s.maxJid) (hlist : t.listed ⊆ s.listed) (hlive : h'.live ⊆ h.live) :
    Numbered ps h' t :=
  ⟨hjid.trans hs.jid, hmax.trans hs.maxJid, fun n hn ↦ hs.listed n (hlist hn),
    fun j hj ↦ hs.live j (hlive hj)⟩

theorem maxJid_stoppedRemoved (s : Shell) (caller : Caller) (kept : List Node) :
    (s.stoppedRemoved caller kept).maxJid = s.maxJid := by
  cases caller with
  | printList => rfl
  | jid2pid arg jid endstr =>
    rw [Shell.stoppedRemoved]
    split
    · rfl
    split
    · rfl
    · rfl

/-- A move starts a job, or it keeps the counters and adds no entry. -/
theorem step_cases (hstep : step a s = some t) :
    (t.jid = s.jid ∧ t.maxJid = s.maxJid ∧ t.listed ⊆ s.listed ∧ ∀ pid, a ≠ .fork (some pid)) ∨
    ∃ argv background pid, a = .fork (some pid) ∧ s.pc = .execute argv background ∧
      t = s.execute argv background (some pid) := by
  cases trans_of_step hstep with
  | readcommands hpc =>
    have hlist : s.listed = s.joblist := by rw [Shell.listed, hpc]
    refine Or.inl ?_
    rw [hlist, Shell.readcommands]
    split
    · exact ⟨rfl, rfl, List.Subset.refl _, by simp⟩
    · split
      · exact ⟨rfl, rfl, List.Subset.refl _, by simp⟩
      · exact ⟨rfl, rfl, List.Subset.refl _, by simp⟩
  | swallow hpc =>
    have hlist : s.listed = s.joblist := by rw [Shell.listed, hpc]
    refine Or.inl ?_
    rw [Shell.swallow]
    split
    · exact ⟨rfl, rfl, hlist ▸ List.Subset.refl _, by simp⟩
    split
    · exact ⟨rfl, rfl, List.Subset.refl _, by simp⟩
    · exact ⟨rfl, rfl, List.Subset.refl _, by simp⟩
  | dispatch hpc =>
    have hlist : s.listed = s.joblist := by rw [Shell.listed, hpc]
    refine Or.inl ?_
    rcases dispatch_cases s with ⟨-, heq⟩ | ⟨-, pc, reports, hline, heq⟩
    · rw [heq]
      exact ⟨rfl, rfl, hlist ▸ List.Subset.refl _, by simp⟩
    · rw [heq, listed_of_fromLine hline, hlist]
      exact ⟨rfl, rfl, List.Subset.refl _, by simp⟩
  | @removeStopped caller kept todo hpc =>
    have hlist : s.listed = kept ++ todo := by rw [Shell.listed, hpc]
    refine Or.inl ?_
    rw [hlist]
    cases todo with
    | nil =>
      obtain ⟨hkept, hjid, -⟩ := listed_stoppedRemoved s caller kept
      rw [List.append_nil, Shell.removeStopped, hkept]
      exact ⟨hjid, maxJid_stoppedRemoved s caller kept, List.Subset.refl _, by simp⟩
    | cons n todo =>
      rw [Shell.removeStopped]
      split
      · refine ⟨rfl, rfl, ?_, by simp⟩
        change kept ++ [n] ++ todo ⊆ _
        rw [List.append_assoc]
        exact List.Subset.refl _
      · exact ⟨rfl, rfl, ((List.Sublist.refl kept).append (List.sublist_cons_self n todo)).subset,
          by simp⟩
  | waited hpc hpid =>
    have hlist : s.listed = s.joblist := by rw [Shell.listed, hpc]
    exact Or.inl ⟨rfl, rfl, hlist ▸ List.Subset.refl _, by simp⟩
  | @fork argv background r hpc hr =>
    cases r with
    | none =>
      have hlist : s.listed = s.joblist := by rw [Shell.listed, hpc]
      exact Or.inl ⟨rfl, rfl, hlist ▸ List.Subset.refl _, by simp⟩
    | some pid => exact Or.inr ⟨argv, background, pid, rfl, hpc, rfl⟩
  | terminate hpid => exact Or.inl ⟨rfl, rfl, List.Subset.refl _, by simp⟩

theorem forked_append (tr tr' : List (Move Shell Act)) :
    forked (tr ++ tr') = forked tr ++ forked tr' := List.filterMap_append

/-- **Every move keeps the numbers.** -/
theorem Numbered.step (hs : Numbered ps h s) (hstart : h.started = ps.length)
    (hstep : step a s = some t) :
    Numbered (ps ++ forked [⟨s, a, t⟩]) (h.record ⟨s, a, t⟩) t := by
  rcases step_cases hstep with ⟨hjid, hmax, hlist, hfork⟩ | ⟨argv, background, pid, rfl, hpc, rfl⟩
  · have hnil : forked [⟨s, a, t⟩] = [] := by
      cases a with
      | fork r =>
        cases r with
        | none => rfl
        | some pid => exact absurd rfl (hfork pid)
      | shell => rfl
      | terminate pid found => rfl
    have hlive : (h.record ⟨s, a, t⟩).live ⊆ h.live := by
      cases a with
      | fork r =>
        cases r with
        | none => exact List.Subset.refl _
        | some pid => exact absurd rfl (hfork pid)
      | shell => exact List.Subset.refl _
      | terminate pid found => exact List.filter_subset_self _
    rw [hnil, List.append_nil]
    exact hs.of_subset hjid hmax hlist hlive
  · have hold : ∀ {k : ℕ} {p : ℤ}, ps[k]? = some p → (ps ++ [pid])[k]? = some p := fun hk ↦ by
      rwa [List.getElem?_append_left (List.getElem?_eq_some_iff.mp hk).1]
    have hlist : (s.execute argv background (some pid)).listed =
        s.listed ++ [⟨s.jid + 1, pid, argv.length, argv⟩] := by
      have hjobs : s.listed = s.joblist := by rw [Shell.listed, hpc]
      rw [hjobs]
      cases background with
      | false => rfl
      | true => rfl
    have hrecord : (h.record ⟨s, .fork (some pid), s.execute argv background (some pid)⟩).live =
        h.live ++ [⟨h.started + 1, pid, argv⟩] := by
      simp only [History.record, hpc]
    have hlen : (ps ++ [pid]).length = ps.length + 1 := List.length_append
    change Numbered (ps ++ [pid]) _ _
    refine ⟨?_, ?_, fun n hn ↦ ?_, fun j hj ↦ ?_⟩
    · rw [hlen, ← hs.jid]
      rfl
    · rw [hlen, ← hs.maxJid]
      rfl
    · rw [hlist, List.mem_append, List.mem_singleton] at hn
      rcases hn with hn | rfl
      · exact ⟨(hs.listed n hn).1, hold (hs.listed n hn).2⟩
      · refine ⟨Nat.succ_pos _, ?_⟩
        rw [hs.jid]
        exact List.getElem?_concat_length
    · rw [hrecord, List.mem_append, List.mem_singleton] at hj
      rcases hj with hj | rfl
      · exact ⟨(hs.live j hj).1, hold (hs.live j hj).2⟩
      · refine ⟨Nat.succ_pos _, ?_⟩
        rw [hstart]
        exact List.getElem?_concat_length

theorem numbered_of_run {seekable : Bool} {input : List Byte} {tr : List (Move Shell Act)}
    (hrun : Run step (start seekable input) tr s) : Numbered (forked tr) (history tr) s := by
  generalize hs₀ : start seekable input = s₀ at hrun
  induction hrun with
  | nil =>
    rw [← hs₀]
    exact ⟨rfl, rfl, nofun, nofun⟩
  | snoc hrun hstep ih =>
    rw [← hs₀] at hrun
    rw [history_snoc, forked_append]
    exact ih.step ((tracks_of_run hrun).started.symm.trans ih.jid) hstep

/-- Without reuse an entry with the pid of a running child is that of the child's job. -/
theorem Numbered.jid_eq (hs : Numbered ps h s) (hnodup : ps.Nodup) {n : Node} {j : Job}
    (hn : n ∈ s.listed) (hj : j ∈ h.live) (hpid : j.pid = n.pid) : j.jid = n.jid := by
  obtain ⟨hnpos, hnget⟩ := hs.listed n hn
  obtain ⟨hjpos, hjget⟩ := hs.live j hj
  have hlt := (List.getElem?_eq_some_iff.mp hjget).1
  have hget := hjget.trans ((congrArg some hpid).trans hnget.symm)
  have heq := (List.getElem?_inj hlt hnodup).mp hget
  omega

/-! ## The lookup -/

/-- The scan that `myw w` starts. -/
def mywCaller (w : List Byte) : Caller := .jid2pid w (mywJid w) (strtol w).2

/-- Where the shell is between the line `myw w` at `s` and the report. -/
inductive Asked (s : Shell) (w : List Byte) (u : Shell) : Prop
  | line (hmyw : u.Myw w) (hmax : u.maxJid = s.maxJid) (hlist : u.joblist = s.joblist)
    (hrun : u.running ⊆ s.running) (hreports : u.reports = s.reports)
  | scan {kept todo : List Node} (hpc : u.pc = .removeStopped (mywCaller w) kept todo)
    (hle : mywJid w ≤ s.maxJid) (hscan : Scan s u kept todo) (hreports : u.reports = s.reports)
  | waiting {n : Node} (hpc : u.pc = .waitpid n.pid (some (mywJid w))) (hle : mywJid w ≤ s.maxJid)
    (hvalid : (strtol w).2 = []) (hjid : n.jid = mywJid w) (hn : n ∈ s.joblist)
    (hlive : n.pid ∈ s.running) (hreports : u.reports = s.reports)

/-- How the shell comes back to the outer loop: the number is larger than every jid, the word is no
number, the list has no entry for it, or the process of the entry has been waited for. -/
inductive Answered (s : Shell) (w : List Byte) (u : Shell) : Prop
  | large (hlt : s.maxJid < mywJid w) (hreports : u.reports = s.reports ++ [.invalid w])
  | invalid (hvalid : (strtol w).2 ≠ []) (hreports : u.reports = s.reports ++ [.invalid w])
  | finished (hle : mywJid w ≤ s.maxJid) (hvalid : (strtol w).2 = [])
    (hnone : ∀ n ∈ u.listed, n.jid ≠ mywJid w)
    (hreports : u.reports = s.reports ++ [.terminated (mywJid w)])
  | waited {n : Node} (hle : mywJid w ≤ s.maxJid) (hvalid : (strtol w).2 = [])
    (hjid : n.jid = mywJid w) (hn : n ∈ s.joblist) (hover : n.pid ∉ u.running)
    (hreports : u.reports = s.reports ++ [.terminated (mywJid w)])

theorem dispatch_myw (h : s.Myw w) : s.dispatch = s.myw w := by
  obtain ⟨-, hhead, background, hparse⟩ := h
  rw [Shell.dispatch, if_neg hhead, hparse]
  rfl

theorem myw_eq (s : Shell) (w : List Byte) : s.myw w =
    if s.maxJid < mywJid w then (s.report (.invalid w)).goto .loop
    else s.goto (.removeStopped (mywCaller w) [] s.joblist) := rfl

theorem stoppedRemoved_myw (s : Shell) (w : List Byte) (kept : List Node) :
    s.stoppedRemoved (mywCaller w) kept =
      if (strtol w).2 ≠ [] then ({ s with joblist := kept }.report (.invalid w)).goto .loop
      else
        match kept.find? fun n ↦ n.jid = mywJid w with
        | none => ({ s with joblist := kept }.report (.terminated (mywJid w))).goto .loop
        | some n => Shell.goto { s with joblist := kept } (.waitpid n.pid (some (mywJid w))) := rfl

/-- The end of the scan. -/
theorem Asked.stoppedRemoved {kept : List Node} (hle : mywJid w ≤ s.maxJid)
    (hscan : Scan s t kept []) (hreports : t.reports = s.reports) :
    Asked s w (t.stoppedRemoved (mywCaller w) kept) ∨
      (t.stoppedRemoved (mywCaller w) kept).pc = .loop ∧
        Answered s w (t.stoppedRemoved (mywCaller w) kept) := by
  rw [stoppedRemoved_myw]
  split_ifs with hvalid
  · exact .inr ⟨rfl, .invalid hvalid (congrArg (· ++ _) hreports)⟩
  rw [not_not] at hvalid
  split
  · rename_i hnone
    refine .inr ⟨rfl, .finished hle hvalid (fun n hn hjid ↦ ?_) (congrArg (· ++ _) hreports)⟩
    exact List.find?_eq_none.mp hnone n hn (decide_eq_true hjid)
  · rename_i n hsome
    have hjid : n.jid = mywJid w := by simpa using List.find?_some hsome
    obtain ⟨hn, hlive⟩ := hscan.kept n (List.mem_of_find?_eq_some hsome)
    exact .inl (.waiting rfl hle hvalid hjid hn hlive hreports)

/-- **A move before the report** leads on, or it comes back to the outer loop. -/
theorem Asked.step (h : Asked s w t) (hstep : step a t = some u) :
    Asked s w u ∨ u.pc = .loop ∧ Answered s w u := by
  cases h with
  | line hmyw hmax hlist hrun hreports =>
    cases trans_of_step hstep with
    | readcommands hpc => cases hpc.symm.trans hmyw.1
    | swallow hpc => cases hpc.symm.trans hmyw.1
    | removeStopped hpc => cases hpc.symm.trans hmyw.1
    | waited hpc => cases hpc.symm.trans hmyw.1
    | fork hpc => cases hpc.symm.trans hmyw.1
    | terminate hpid =>
      exact .inl (.line hmyw hmax hlist ((Finset.erase_subset _ _).trans hrun) hreports)
    | dispatch hpc =>
      rw [dispatch_myw hmyw, myw_eq]
      split_ifs with hlt
      · exact .inr ⟨rfl, .large (hmax ▸ hlt) (congrArg (· ++ _) hreports)⟩
      · refine .inl (.scan rfl (hmax ▸ not_lt.mp hlt) ⟨nofun, fun n hn ↦ ?_, hrun⟩ hreports)
        rwa [hlist] at hn
  | @scan kept todo hpc hle hscan hreports =>
    cases trans_of_step hstep with
    | readcommands h => cases hpc.symm.trans h
    | swallow h => cases hpc.symm.trans h
    | dispatch h => cases hpc.symm.trans h
    | waited h => cases hpc.symm.trans h
    | fork h => cases hpc.symm.trans h
    | terminate hpid =>
      exact .inl (.scan hpc hle ⟨hscan.kept, hscan.todo,
        (Finset.erase_subset _ _).trans hscan.running⟩ hreports)
    | removeStopped h =>
      cases hpc.symm.trans h
      cases todo with
      | nil => exact Asked.stoppedRemoved hle hscan hreports
      | cons n todo =>
        have hscanning : (t.removeStopped (mywCaller w) kept (n :: todo)).Scanning
            (mywCaller w) ∧
            (t.removeStopped (mywCaller w) kept (n :: todo)).reports = t.reports := by
          rw [Shell.removeStopped]
          split
          · exact ⟨⟨_, _, rfl⟩, rfl⟩
          · exact ⟨⟨_, _, rfl⟩, rfl⟩
        obtain ⟨kept', todo', hpc', hscan'⟩ := hscan.step hpc hstep hscanning.1
        exact .inl (.scan hpc' hle hscan' (hscanning.2.trans hreports))
  | @waiting n hpc hle hvalid hjid hn hlive hreports =>
    cases trans_of_step hstep with
    | readcommands h => cases hpc.symm.trans h
    | swallow h => cases hpc.symm.trans h
    | dispatch h => cases hpc.symm.trans h
    | removeStopped h => cases hpc.symm.trans h
    | fork h => cases hpc.symm.trans h
    | terminate hpid => exact .inl (.waiting hpc hle hvalid hjid hn hlive hreports)
    | waited h hover =>
      cases hpc.symm.trans h
      exact .inr ⟨rfl, .waited hle hvalid hjid hn hover (congrArg (· ++ _) hreports)⟩

theorem asked_of_run {tr : List (Move Shell Act)} (hmyw : s.Myw w) (hrun : Run step s tr u)
    (hsrc : ∀ m ∈ tr, m.src.pc ≠ .loop) : Asked s w u ∨ u.pc = .loop ∧ Answered s w u := by
  induction hrun with
  | nil => exact .inl (.line hmyw rfl rfl (Finset.Subset.refl _) rfl)
  | snoc _ hstep ih =>
    rw [List.forall_mem_append, List.forall_mem_singleton] at hsrc
    rcases ih hsrc.1 with hasked | ⟨hloop, -⟩
    · exact hasked.step hstep
    · exact absurd hloop hsrc.2

theorem Asked.not_loop (h : Asked s w u) : u.pc ≠ .loop := by
  intro hloop
  cases h with
  | line hmyw => cases hmyw.1.symm.trans hloop
  | scan hpc => cases hpc.symm.trans hloop
  | waiting hpc => cases hpc.symm.trans hloop

/-- The shell comes back to the outer loop. -/
theorem within_of_myw (hmyw : s.Myw w) :
    Within step (fun _ ↦ True) (fun u ↦ u.pc = .loop) (s.toRead + 1) s := by
  refine within_of_rank (P := Asked s w) Shell.toRead (fun {t} h _ ↦ ?_)
    (fun {t a u} h _ hstep ↦ ?_) (.line hmyw rfl rfl (Finset.Subset.refl _) rfl)
    (Nat.lt_succ_self _)
  · have hdone : ¬t.Done := by
      rintro (hpc | hpc)
      all_goals cases h with
      | line hmyw => cases hmyw.1.symm.trans hpc
      | scan hpc' => cases hpc'.symm.trans hpc
      | waiting hpc' => cases hpc'.symm.trans hpc
    obtain ⟨a, u, hstep⟩ := exists_step hdone
    exact ⟨a, u, (stepKeeping_eq_some.mp hstep).2⟩
  · refine ⟨trivial, (h.step hstep).elim (fun hu ↦ .inr ⟨hu, ?_⟩) fun hu ↦ .inl hu.1⟩
    have hswallow : t.pc ≠ .swallow := by
      intro hpc
      cases h with
      | line hmyw => cases hmyw.1.symm.trans hpc
      | scan hpc' => cases hpc'.symm.trans hpc
      | waiting hpc' => cases hpc'.symm.trans hpc
    exact toRead_step hstep h.not_loop hswallow

/-! ## When the answer is right -/

/-- The number is told apart from those that are no jid: it is not 0, and not a negative one that
becomes a jid as an `unsigned long`. -/
def Apart (started : ℕ) (w : List Byte) : Prop :=
  (strtol w).2 = [] → (strtol w).1 ≠ 0 ∧ ((strtol w).1 < 0 → (started : ℤ) < (strtol w).1 + 2 ^ 64)

theorem strtol_bounds (w : List Byte) : -2 ^ 63 ≤ (strtol w).1 ∧ (strtol w).1 < 2 ^ 63 := by
  have hzero : -2 ^ 63 ≤ (0 : ℤ) ∧ (0 : ℤ) < 2 ^ 63 := by decide
  rw [strtol]
  split
  split
  · exact hzero
  · split
    · split
      simp only
      omega
    · exact hzero

/-- The first step of the lookup. -/
theorem mywJid_le_iff {n : ℕ} (w : List Byte) : mywJid w ≤ n ↔
    0 ≤ (strtol w).1 ∧ (strtol w).1 ≤ n ∨ (strtol w).1 < 0 ∧ (strtol w).1 + 2 ^ 64 ≤ n := by
  have hbounds := strtol_bounds w
  rw [mywJid]
  omega

theorem not_isJid_of_lt {n : ℕ} (h : n < mywJid w) : ¬IsJid n w := fun hjid ↦
  absurd ((mywJid_le_iff w).mpr (Or.inl ⟨by have := hjid.2.1; omega, hjid.2.2⟩)) (not_le.mpr h)

theorem maxJid_eq {seekable : Bool} {input : List Byte} {tr : List (Move Shell Act)}
    (hrun : Run step (start seekable input) tr s) : s.maxJid = (history tr).started := by
  have hnum := numbered_of_run hrun
  rw [hnum.maxJid, ← hnum.jid, (tracks_of_run hrun).started]

/-- The shell waits for the process of the job only, and only if it was live. -/
theorem job_of_waits {seekable : Bool} {input : List Byte} {tr tr' : List (Move Shell Act)}
    {pid : ℤ} (hrun : Run step (start seekable input) tr s) (hmyw : s.Myw w) (hreuse : NoReuse tr)
    (hrun' : Run step s tr' u) (hsrc : ∀ m ∈ tr', m.src.pc ≠ .loop) (hwait : Waits tr' pid) :
    mywJid w ≤ s.maxJid ∧ (strtol w).2 = [] ∧
      ∃ j ∈ (history tr).live, j.jid = mywJid w ∧ j.pid = pid := by
  obtain ⟨m, hm, jid, hpc⟩ := hwait
  obtain ⟨pre, post, rfl⟩ := List.append_of_mem hm
  have hasked := asked_of_run hmyw hrun'.split_at.1 fun m' hm' ↦
    hsrc m' (List.mem_append_left _ hm')
  rcases hasked with hasked | ⟨hloop, -⟩
  · cases hasked with
    | line hmyw' => cases hmyw'.1.symm.trans hpc
    | scan hpc' => cases hpc'.symm.trans hpc
    | @waiting n hpc' hle hvalid hjid hn hlive =>
      cases hpc'.symm.trans hpc
      have hlisted : s.listed = s.joblist := by rw [Shell.listed, hmyw.1]
      obtain ⟨j, hj, hpid⟩ := ((tracks_of_run hrun).running n.pid).mp hlive
      have hjn := (numbered_of_run hrun).jid_eq hreuse (by rwa [hlisted]) hj hpid
      exact ⟨hle, hvalid, j, hj, hjn.trans hjid, hpid⟩
  · exact absurd hloop (hsrc m hm)

/-- A job with an entry in the list that is still live has the pid of the entry. -/
theorem not_live_of_over {seekable : Bool} {input : List Byte} {tr tr' : List (Move Shell Act)}
    {n : Node} (hrun : Run step (start seekable input) tr s) (hrun' : Run step s tr' u)
    (hn : n ∈ s.listed) (hover : n.pid ∉ u.running) :
    ∀ j ∈ (history (tr ++ tr')).live, j.jid ≠ n.jid := by
  intro j hj hjid
  have hu := hrun.append hrun'
  obtain ⟨-, hjget⟩ := (numbered_of_run hu).live j hj
  obtain ⟨-, hnget⟩ := (numbered_of_run hrun).listed n hn
  have hold : (forked (tr ++ tr'))[n.jid - 1]? = some n.pid := by
    rw [forked_append, List.getElem?_append_left (List.getElem?_eq_some_iff.mp hnget).1]
    exact hnget
  rw [hjid, hold] at hjget
  exact hover (((tracks_of_run hu).running n.pid).mpr ⟨j, hj, (Option.some.inj hjget).symm⟩)

theorem mywJid_eq_of_isJid {n : ℕ} (h : IsJid n w) : (mywJid w : ℤ) = (strtol w).1 := by
  have hbounds := strtol_bounds w
  have hpos := h.2.1
  rw [mywJid]
  omega

/-- A number that passes for a jid is one, if it is told apart. -/
theorem Apart.isJid {n : ℕ} (h : Apart n w) (hvalid : (strtol w).2 = []) (hle : mywJid w ≤ n) :
    IsJid n w := by
  have happ := h hvalid
  rw [mywJid_le_iff] at hle
  exact ⟨hvalid, by omega, by omega⟩

theorem answersRight_iff {seekable : Bool} {input : List Byte} {tr : List (Move Shell Act)}
    (hrun : Run step (start seekable input) tr s) (hmyw : s.Myw w) (hreuse : NoReuse tr) :
    AnswersRight tr s w ↔ Apart (history tr).started w := by
  have hmax := maxJid_eq hrun
  constructor
  · rintro ⟨⟨n, hwithin⟩, hright⟩ hvalid
    by_contra hbad
    -- the number passes for that of a job
    have hle : mywJid w ≤ (history tr).started := by
      rw [mywJid_le_iff]
      omega
    have hno : ¬IsJid (history tr).started w := fun hjid ↦ by
      have hpos := hjid.2.1
      omega
    obtain ⟨tr', u, hrun', hsrc, hu⟩ := hwithin.exists_run
    obtain ⟨r, hreports, hr⟩ := hright tr' u hrun' hsrc hu
    rw [(hr.invalid hno).1] at hreports
    rcases asked_of_run hmyw hrun' hsrc with hasked | ⟨-, hans⟩
    · exact hasked.not_loop hu
    cases hans with
    | large hlt => exact absurd (hmax ▸ hlt) (not_lt.mpr hle)
    | invalid hinvalid => exact hinvalid hvalid
    | finished _ _ _ hreports' => simp [hreports] at hreports'
    | waited _ _ _ _ _ hreports' => simp [hreports] at hreports'
  · refine fun hapart ↦ ⟨⟨_, within_of_myw hmyw⟩, fun tr' u hrun' hsrc hu ↦ ?_⟩
    have hwaits := fun (p : ℤ) (hwait : Waits tr' p) ↦
      job_of_waits hrun hmyw hreuse hrun' hsrc hwait
    rw [hmax] at hwaits
    have hnone : ¬IsJid (history tr).started w → ∀ pid, ¬Waits tr' pid := fun hno pid hwait ↦
      hno (hapart.isJid (hwaits pid hwait).2.1 (hwaits pid hwait).1)
    -- the report of a job that is over
    have hover : mywJid w ≤ (history tr).started → (strtol w).2 = [] →
        (∀ j ∈ (history (tr ++ tr')).live, j.jid ≠ mywJid w) →
        Right (history tr) (history (tr ++ tr')) w (Waits tr') (.terminated (mywJid w)) :=
      fun hle hvalid hlive ↦
        have hjid := hapart.isJid hvalid hle
        ⟨fun hno ↦ absurd hjid hno, fun _ ↦ ⟨_, mywJid_eq_of_isJid hjid, rfl, hlive,
          fun pid hwait ↦ (hwaits pid hwait).2.2⟩⟩
    rcases asked_of_run hmyw hrun' hsrc with hasked | ⟨-, hans⟩
    · exact absurd hu hasked.not_loop
    cases hans with
    | large hlt hreports =>
      have hno := not_isJid_of_lt (hmax ▸ hlt)
      exact ⟨_, hreports, fun _ ↦ ⟨rfl, hnone hno⟩, fun hjid ↦ absurd hjid hno⟩
    | invalid hvalid hreports =>
      have hno : ¬IsJid (history tr).started w := fun hjid ↦ hvalid hjid.1
      exact ⟨_, hreports, fun _ ↦ ⟨rfl, hnone hno⟩, fun hjid ↦ absurd hjid hno⟩
    | finished hle hvalid hnone' hreports =>
      refine ⟨_, hreports, hover (hmax ▸ hle) hvalid fun j hj ↦ ?_⟩
      exact hnone' j.node ((tracks_of_run (hrun.append hrun')).entries j hj)
    | @waited n hle hvalid hjid hn hdead hreports =>
      have hlisted : s.listed = s.joblist := by rw [Shell.listed, hmyw.1]
      refine ⟨_, hreports, hover (hmax ▸ hle) hvalid ?_⟩
      rw [← hjid]
      exact not_live_of_over hrun hrun' (by rwa [hlisted]) hdead

/-- **What `myw` answers**, in every run that has come to a line `myw w`. -/
theorem myw_answers_iff (seekable : Bool) (input : List Byte) (tr : List (Move Shell Act))
    (s : Shell) (w : List Byte) (hrun : Run step (start seekable input) tr s) (hmyw : s.Myw w)
    (hreuse : NoReuse tr) : AnswersRight tr s w ↔ Apart (history tr).started w :=
  answersRight_iff hrun hmyw hreuse

/-! ## Two lines -/

/-- `b &`, then `myw 1`. -/
def waitInput : List Byte := [0x62, ampersand, newline] ++ mywCommand ++ [0x20, 0x31, newline]

def waitActs : List Act := [.shell, .shell, .fork (some 7), .shell]

theorem wait_replay : (replay step waitActs (start true waitInput)).map
    (fun s ↦ (s.pc, s.commands)) = some (.line, mywCommand ++ [0x20, 0x31, newline]) := by decide

theorem myw_answers_b : ∃ tr s, Run step (start true waitInput) tr s ∧ s.Myw [0x31] ∧
    (history tr).live = [⟨1, 7, [[0x62]]⟩] ∧ AnswersRight tr s [0x31] := by
  obtain ⟨s, hs, hstate⟩ := Option.map_eq_some_iff.mp wait_replay
  obtain ⟨hpc, hline⟩ := Prod.mk.inj hstate
  have hmyw : s.Myw [0x31] := by
    rw [Shell.Myw, hline]
    exact ⟨hpc, by decide, false, by decide⟩
  have hreuse : NoReuse (moves step waitActs (start true waitInput)) := by
    rw [NoReuse]
    decide
  have hapart : Apart (history (moves step waitActs (start true waitInput))).started [0x31] := by
    rw [Apart]
    decide
  have hrun := (run_moves hs).1
  exact ⟨_, s, hrun, hmyw, by decide, (myw_answers_iff _ _ _ s _ hrun hmyw hreuse).mpr hapart⟩

/-- `myw 0` -/
def zeroInput : List Byte := mywCommand ++ [0x20, 0x30, newline]

theorem zero_replay : (replay step [.shell] (start true zeroInput)).map
    (fun s ↦ (s.pc, s.commands)) = some (.line, zeroInput) := by decide

/-- `myw 0` is told that job 0 has terminated, before any job has been started. -/
theorem not_myw_answers : ¬∀ (seekable : Bool) (input : List Byte) (tr : List (Move Shell Act))
    (s : Shell) (w : List Byte), Run step (start seekable input) tr s → s.Myw w → NoReuse tr →
      AnswersRight tr s w := by
  intro h
  obtain ⟨s, hs, hstate⟩ := Option.map_eq_some_iff.mp zero_replay
  obtain ⟨hpc, hline⟩ := Prod.mk.inj hstate
  have hmyw : s.Myw [0x30] := by
    rw [Shell.Myw, hline]
    exact ⟨hpc, by decide, false, by decide⟩
  have hrun := (run_moves hs).1
  have hreuse : NoReuse (moves step [.shell] (start true zeroInput)) := List.nodup_nil
  have hapart := (answersRight_iff hrun hmyw hreuse).mp (h _ _ _ s _ hrun hmyw hreuse)
  exact absurd (hapart (by decide)).1 (by decide)

end CS537.Mysh
