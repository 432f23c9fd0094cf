import CS537.Mysh.Termination

/-!
# The job list

`removeStoppedJobs` asks `waitpid` about the pid of an entry and keeps the entry if some child with
that pid is running. The entry of a foreground job stays in the list after its process has been
waited for. When the kernel gives the pid to a later child, that child keeps the old entry alive,
and `j` shows a job that is over.
-/

namespace CS537.Mysh

open Transition

/-! ## The jobs -/

/-- A job as it was started. -/
structure Job where
  jid : ℕ
  pid : ℤ
  argv : List (List Byte)
  deriving DecidableEq

/-- Its entry in the list, and its line as `j` should print it. -/
def Job.node (j : Job) : Node := ⟨j.jid, j.pid, j.argv.length, j.argv⟩

def Job.line (j : Job) : ℕ × List (List Byte) := (j.jid, j.argv)

/-- What has happened: how many jobs have been started, and those of them whose process has not
terminated. -/
structure History where
  started : ℕ
  live : List Job

/-- A successful `fork` starts the next job, and the end of a child ends its job. -/
def History.record (h : History) (m : Move Shell Act) : History :=
  match m.act with
  | .fork (some pid) =>
    match m.src.pc with
    | .execute argv _ => ⟨h.started + 1, h.live ++ [⟨h.started + 1, pid, argv⟩]⟩
    | _ => h
  | .terminate pid _ => ⟨h.started, h.live.filter fun j ↦ j.pid ≠ pid⟩
  | _ => h

def history (tr : List (Move Shell Act)) : History := tr.foldl History.record ⟨0, []⟩

theorem history_snoc (tr : List (Move Shell Act)) (m : Move Shell Act) :
    history (tr ++ [m]) = (history tr).record m := by
  rw [history, List.foldl_append]
  rfl

/-! ## What is printed -/

/-- The line of an entry: the jid, and the first `argc` strings of `argv`. -/
def Node.line (n : Node) : ℕ × List (List Byte) := (n.jid, n.argv.take n.argc)

variable {s t u : Shell} {a : Act} {h : History}

/-- The entries, also while `removeStoppedJobs` goes through them. -/
def Shell.listed (s : Shell) : List Node :=
  match s.pc with
  | .removeStopped _ kept todo => kept ++ todo
  | _ => s.joblist

/-- The list has the entries of all live jobs, by increasing jid, and the running children are those
of the live jobs. -/
structure Tracks (h : History) (s : Shell) : Prop where
  started : s.jid = h.started
  entries : ∀ j ∈ h.live, j.node ∈ s.listed
  sorted : s.listed.Pairwise fun n n' ↦ n.jid < n'.jid
  jid_le : ∀ n ∈ s.listed, n.jid ≤ s.jid
  running : ∀ pid, pid ∈ s.running ↔ ∃ j ∈ h.live, j.pid = pid

/-- A move that neither starts nor ends a job and leaves the entries alone. -/
theorem Tracks.of_eq (hs : Tracks h s) (hjid : t.jid = s.jid) (hlist : t.listed = s.listed)
    (hrun : t.running = s.running) : Tracks h t := by
  refine ⟨hjid.trans hs.started, ?_, ?_, ?_, ?_⟩
  · rw [hlist]
    exact hs.entries
  · rw [hlist]
    exact hs.sorted
  · rw [hlist, hjid]
    exact hs.jid_le
  · rw [hrun]
    exact hs.running

theorem listed_of_fromLine {pc : Pc} {reports : List Report} (hpc : pc.FromLine s.joblist) :
    Shell.listed { s with pc := pc, reports := reports } = s.joblist := by
  cases hpc with
  | loop => rfl
  | removeStopped caller => rfl
  | execute argv background => rfl

theorem Tracks.dispatch (hs : Tracks h s) (hpc : s.pc = .line) : Tracks h s.dispatch := by
  have hlist : s.listed = s.joblist := by rw [Shell.listed, hpc]
  rcases dispatch_cases s with ⟨-, heq⟩ | ⟨-, pc, reports, hline, heq⟩
  · rw [heq]
    exact hs.of_eq rfl (by rw [hlist]; rfl) rfl
  · rw [heq]
    exact hs.of_eq rfl (by rw [hlist, listed_of_fromLine hline]) rfl

theorem listed_stoppedRemoved (s : Shell) (caller : Caller) (kept : List Node) :
    (s.stoppedRemoved caller kept).listed = kept ∧
      (s.stoppedRemoved caller kept).jid = s.jid ∧
      (s.stoppedRemoved caller kept).running = s.running := by
  cases caller with
  | printList => exact ⟨rfl, rfl, rfl⟩
  | jid2pid arg jid endstr =>
    rw [Shell.stoppedRemoved]
    split
    · exact ⟨rfl, rfl, rfl⟩
    split
    · exact ⟨rfl, rfl, rfl⟩
    · exact ⟨rfl, rfl, rfl⟩

/-- An entry is dropped only if no child has its pid, and then its job is over. -/
theorem Tracks.removeStopped (hs : Tracks h s) {caller : Caller} {kept todo : List Node}
    (hpc : s.pc = .removeStopped caller kept todo) :
    Tracks h (s.removeStopped caller kept todo) := by
  have hlist : s.listed = kept ++ todo := by rw [Shell.listed, hpc]
  cases todo with
  | nil =>
    obtain ⟨hlist', hjid, hrun⟩ := listed_stoppedRemoved s caller kept
    exact hs.of_eq hjid (by rw [hlist, List.append_nil]; exact hlist') hrun
  | cons n todo =>
    rw [Shell.removeStopped]
    split
    · refine hs.of_eq rfl ?_ rfl
      rw [hlist]
      exact List.append_assoc kept [n] todo
    · rename_i hdead
      have hsub : (kept ++ todo).Sublist s.listed := by
        rw [hlist]
        exact (List.Sublist.refl kept).append (List.sublist_cons_self n todo)
      refine ⟨hs.started, fun j hj ↦ ?_, hs.sorted.sublist hsub,
        fun m hm ↦ hs.jid_le m (hsub.subset hm), hs.running⟩
      have hmem := hs.entries j hj
      rw [hlist, List.mem_append, List.mem_cons] at hmem
      change j.node ∈ kept ++ todo
      rw [List.mem_append]
      rcases hmem with hmem | rfl | hmem
      · exact .inl hmem
      · exact absurd ((hs.running _).mpr ⟨j, hj, rfl⟩) hdead
      · exact .inr hmem

/-- A new job has the largest jid so far. -/
theorem Tracks.execute (hs : Tracks h s) {argv : List (List Byte)} {background : Bool}
    (hpc : s.pc = .execute argv background) (pid : ℤ) :
    Tracks ⟨h.started + 1, h.live ++ [⟨h.started + 1, pid, argv⟩]⟩
      (s.execute argv background (some pid)) := by
  have hlist : s.listed = s.joblist := by rw [Shell.listed, hpc]
  have hlist' : (s.execute argv background (some pid)).listed =
      s.listed ++ [⟨s.jid + 1, pid, argv.length, argv⟩] := by
    rw [hlist]
    cases background with
    | false => rfl
    | true => rfl
  refine ⟨congrArg (· + 1) hs.started, fun j hj ↦ ?_, ?_, fun n hn ↦ ?_, fun p ↦ ?_⟩
  · rw [hlist', List.mem_append, List.mem_singleton]
    rcases List.mem_append.mp hj with hj | hj
    · exact .inl (hs.entries j hj)
    · obtain rfl := List.mem_singleton.mp hj
      rw [← hs.started]
      exact .inr rfl
  · rw [hlist', List.pairwise_append]
    refine ⟨hs.sorted, List.pairwise_singleton _ _, fun n hn m hm ↦ ?_⟩
    obtain rfl := List.mem_singleton.mp hm
    exact Nat.lt_succ_of_le (hs.jid_le n hn)
  · rw [hlist', List.mem_append, List.mem_singleton] at hn
    rcases hn with hn | rfl
    · exact (hs.jid_le n hn).trans (Nat.le_succ _)
    · exact le_rfl
  · change p ∈ insert pid s.running ↔ _
    rw [Finset.mem_insert, hs.running]
    simp only [List.mem_append, List.mem_singleton]
    constructor
    · rintro (rfl | ⟨j, hj, rfl⟩)
      · exact ⟨_, .inr rfl, rfl⟩
      · exact ⟨j, .inl hj, rfl⟩
    · rintro ⟨j, hj | rfl, rfl⟩
      · exact .inr ⟨j, hj, rfl⟩
      · exact .inl rfl

theorem Tracks.terminate (hs : Tracks h s) (pid : ℤ) (found : Bool) :
    Tracks ⟨h.started, h.live.filter fun j ↦ j.pid ≠ pid⟩ (s.terminate pid found) := by
  refine ⟨hs.started, fun j hj ↦ hs.entries j (List.mem_of_mem_filter hj), hs.sorted, hs.jid_le,
    fun p ↦ ?_⟩
  change p ∈ s.running.erase pid ↔ _
  rw [Finset.mem_erase, hs.running]
  simp only [List.mem_filter, decide_eq_true_eq]
  constructor
  · rintro ⟨hne, j, hj, rfl⟩
    exact ⟨j, ⟨hj, hne⟩, rfl⟩
  · rintro ⟨j, ⟨hj, hne⟩, rfl⟩
    exact ⟨hne, j, hj, rfl⟩

/-- **Every move keeps the list and the history together.** -/
theorem Tracks.step (hs : Tracks h s) (hstep : step a s = some t) :
    Tracks (h.record ⟨s, a, t⟩) t := by
  cases trans_of_step hstep with
  | readcommands hpc =>
    have hlist : s.joblist = s.listed := by rw [Shell.listed, hpc]
    change Tracks h s.readcommands
    rw [Shell.readcommands]
    split
    · exact hs.of_eq rfl hlist rfl
    · split
      · exact hs.of_eq rfl hlist rfl
      · exact hs.of_eq rfl hlist rfl
  | swallow hpc =>
    have hlist : s.joblist = s.listed := by rw [Shell.listed, hpc]
    change Tracks h s.swallow
    rw [Shell.swallow]
    split
    · exact hs.of_eq rfl hlist rfl
    split
    · exact hs.of_eq rfl rfl rfl
    · refine hs.of_eq rfl ?_ rfl
      rw [← hlist, Shell.listed, hpc]
  | dispatch hpc => exact hs.dispatch hpc
  | removeStopped hpc => exact hs.removeStopped hpc
  | waited hpc hpid =>
    have hlist : s.joblist = s.listed := by rw [Shell.listed, hpc]
    exact hs.of_eq rfl hlist rfl
  | @fork argv background r hpc hr =>
    cases r with
    | none =>
      have hlist : s.joblist = s.listed := by rw [Shell.listed, hpc]
      exact hs.of_eq rfl hlist rfl
    | some pid =>
      simp only [History.record, hpc]
      exact hs.execute hpc pid
  | terminate hpid => exact hs.terminate _ _

theorem tracks_of_run {seekable : Bool} {input : List Byte} {tr : List (Move Shell Act)}
    (hrun : Run step (start seekable input) tr s) : Tracks (history tr) s := by
  generalize hs₀ : start seekable input = s₀ at hrun
  induction hrun with
  | nil =>
    rw [← hs₀]
    refine ⟨rfl, ?_, .nil, ?_, ?_⟩
    · simp [history]
    · simp [start, Shell.listed]
    · simp [start, history]
  | snoc _ hstep ih =>
    rw [history_snoc]
    exact ih.step hstep

/-! ## One scan of the list -/

/-- `removeStoppedJobs` goes through the list for this caller. -/
def Shell.Scanning (s : Shell) (caller : Caller) : Prop :=
  ∃ kept todo, s.pc = .removeStopped caller kept todo

variable {caller : Caller}

/-- In a scan that `s` has started: what has been kept had the pid of a running child. -/
structure Scan (s u : Shell) (kept todo : List Node) : Prop where
  kept : ∀ n ∈ kept, n ∈ s.joblist ∧ n.pid ∈ s.running
  todo : ∀ n ∈ todo, n ∈ s.joblist
  running : u.running ⊆ s.running

theorem pc_stoppedRemoved (s : Shell) (caller : Caller) (kept : List Node) :
    (s.stoppedRemoved caller kept).pc = .loop ∨
      ∃ pid jid, (s.stoppedRemoved caller kept).pc = .waitpid pid jid := by
  cases caller with
  | printList => exact .inl rfl
  | jid2pid arg jid endstr =>
    rw [Shell.stoppedRemoved]
    split
    · exact .inl rfl
    split
    · exact .inl rfl
    · exact .inr ⟨_, _, rfl⟩

/-- A move within `removeStoppedJobs`. -/
theorem Scan.step {kept todo : List Node} (hscan : Scan s t kept todo)
    (hpc : t.pc = .removeStopped caller kept todo) (hstep : step a t = some u)
    (hu : u.Scanning caller) :
    ∃ kept' todo', u.pc = .removeStopped caller kept' todo' ∧ Scan s u kept' todo' := by
  cases trans_of_step hstep with
  | readcommands h => cases hpc.symm.trans h
  | swallow h => cases hpc.symm.trans h
  | dispatch h => cases hpc.symm.trans h
  | waited h => cases hpc.symm.trans h
  | fork h => cases hpc.symm.trans h
  | terminate hpid =>
    exact ⟨kept, todo, hpc, hscan.kept, hscan.todo,
      (Finset.erase_subset _ _).trans hscan.running⟩
  | removeStopped h =>
    cases hpc.symm.trans h
    cases todo with
    -- at the end `removeStoppedJobs` is left
    | nil =>
      obtain ⟨kept', todo', hpc'⟩ := hu
      obtain hpc'' | ⟨pid, jid, hpc''⟩ := pc_stoppedRemoved t caller kept
      · cases hpc'.symm.trans hpc''
      · cases hpc'.symm.trans hpc''
    | cons n todo =>
      have hrest : ∀ m ∈ todo, m ∈ s.joblist := fun m hm ↦ hscan.todo m (List.mem_cons_of_mem _ hm)
      rw [Shell.removeStopped]
      split
      · rename_i hlive
        refine ⟨kept ++ [n], todo, rfl, fun m hm ↦ ?_, hrest, hscan.running⟩
        rcases List.mem_append.mp hm with hm | hm
        · exact hscan.kept m hm
        · obtain rfl := List.mem_singleton.mp hm
          exact ⟨hscan.todo m List.mem_cons_self, hscan.running hlive⟩
      · exact ⟨kept, todo, rfl, hscan.kept, hrest, hscan.running⟩

end CS537.Mysh
