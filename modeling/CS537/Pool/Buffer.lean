import CS537.Lib.Ring
import CS537.Pool.Server

/-!
# No connection is lost or taken twice

The buffer is a ring that holds the `count` connections from `readBufferNo` on. What the workers
have taken, followed by what the ring holds and by the connection the master has in hand, is what
the master has accepted, in that order.
-/

namespace CS537.Pool

open Function Transition

variable {numthread : ℕ} {numbuff : ℤ} {s t : Server numthread} {a : Act numthread}

/-! ## The indices -/

/-- The indices are in the buffer and `count` apart. -/
structure Indexed (numbuff : ℤ) (s : Server numthread) : Prop where
  count_nonneg : 0 ≤ s.count
  count_le : s.count ≤ numbuff
  read_nonneg : 0 ≤ s.readBufferNo
  read_lt : s.readBufferNo < numbuff
  write : s.writeBufferNo = (s.readBufferNo + s.count) % numbuff

namespace Indexed

theorem write_nonneg (h : Indexed numbuff s) : 0 ≤ s.writeBufferNo := by
  have := h.read_nonneg
  have := h.read_lt
  rw [h.write]
  exact Int.emod_nonneg _ (by omega)

/-- C's remainder of an index that has moved on by one. -/
theorem tmod_write (h : Indexed numbuff s) :
    (s.writeBufferNo + 1).tmod numbuff = (s.readBufferNo + (s.count + 1)) % numbuff := by
  have := h.write_nonneg
  rw [Int.tmod_eq_emod_of_nonneg (by omega), h.write, Int.emod_add_emod, add_assoc]

theorem tmod_read (h : Indexed numbuff s) :
    (s.readBufferNo + 1).tmod numbuff = (s.readBufferNo + 1) % numbuff :=
  Int.tmod_eq_emod_of_nonneg (by have := h.read_nonneg; omega)

theorem trans (h : Indexed numbuff s) (ht : Trans numbuff s a t) : Indexed numbuff t := by
  have hpos : 0 < numbuff := by
    have := h.read_nonneg
    have := h.read_lt
    omega
  have hnonneg := h.count_nonneg
  have hle := h.count_le
  -- only a put and a take change the counters
  cases ht with
  | put hm hroom hS =>
    exact ⟨by simp only; omega, by simp only; omega, h.read_nonneg, h.read_lt, h.tmod_write⟩
  | take hi hfill =>
    refine ⟨by simp only; omega, by simp only; omega, ?_, ?_, ?_⟩
    · simp only [h.tmod_read]
      exact Int.emod_nonneg _ (by omega)
    · simp only [h.tmod_read]
      exact Int.emod_lt_of_pos _ hpos
    · simp only [h.tmod_read, Int.emod_add_emod]
      rw [h.write]
      congr 1
      omega
  | _ => exact ⟨hnonneg, hle, h.read_nonneg, h.read_lt, h.write⟩

end Indexed

theorem Started.indexed (h : Started s) (hn : 1 ≤ numbuff) : Indexed numbuff s := by
  refine ⟨h.count.ge, ?_, h.readBufferNo.ge, ?_, ?_⟩
  · rw [h.count]
    omega
  · rw [h.readBufferNo]
    omega
  · rw [h.writeBufferNo, h.readBufferNo, h.count, add_zero, Int.zero_emod]

/-! ## The queue -/

/-- The `count` descriptors from `readBufferNo` on. -/
def stored (numbuff : ℤ) (s : Server numthread) : List ℤ :=
  Ring.contents s.buff numbuff s.readBufferNo s.count.toNat

/-- The descriptor that the master has accepted and not yet stored. -/
def Master.pending : Master → List ℤ
  | .accept => []
  | .lock connfd | .wait connfd | .woken connfd => [connfd]

/-- The descriptor that `Accept` returns in a move. -/
def accepts (m : Move (Server numthread) (Act numthread)) : List ℤ :=
  match m.act with
  | .accept connfd => [connfd]
  | _ => []

/-- The descriptor that a worker goes on to handle. -/
def takes (m : Move (Server numthread) (Act numthread)) : List ℤ :=
  match m.act with
  | .worker i =>
    match m.dst.worker i with
    | .handle connfd => [connfd]
    | _ => []
  | _ => []

/-- The descriptors accepted in a run. -/
def accepted (tr : List (Move (Server numthread) (Act numthread))) : List ℤ := tr.flatMap accepts

/-- The descriptors handed to the workers in a run. -/
def taken (tr : List (Move (Server numthread) (Act numthread))) : List ℤ := tr.flatMap takes

theorem Master.Holds.pending {x : Master} {connfd : ℤ} (h : x.Holds connfd) :
    x.pending = [connfd] := by
  rcases h with rfl | rfl <;> rfl

theorem Master.length_pending (x : Master) : x.pending.length ≤ 1 := by
  cases x <;> simp [pending]

theorem Master.pending_signal (x : Master) : x.signal.pending = x.pending := by
  cases x <;> rfl

/-- A put appends to the queue. -/
theorem Indexed.stored_put (h : Indexed numbuff s) (hroom : s.count ≠ numbuff) (connfd : ℤ) :
    Ring.contents (update s.buff s.writeBufferNo connfd) numbuff s.readBufferNo
      (s.count + 1).toNat = stored numbuff s ++ [connfd] := by
  have hnonneg := h.count_nonneg
  have hle := h.count_le
  have hcast : (s.count.toNat : ℤ) = s.count := Int.toNat_of_nonneg hnonneg
  rw [Int.toNat_add hnonneg zero_le_one, h.write, ← hcast]
  exact Ring.contents_push (by omega) connfd

/-- A take removes the head of the queue. -/
theorem Indexed.stored_take (h : Indexed numbuff s) (hfill : s.count ≠ 0) :
    stored numbuff s = s.buff s.readBufferNo ::
      Ring.contents s.buff numbuff ((s.readBufferNo + 1).tmod numbuff) (s.count - 1).toNat := by
  have hnonneg := h.count_nonneg
  have hcount : s.count.toNat = (s.count - 1).toNat + 1 := by omega
  rw [stored, hcount, Ring.contents_pop, h.tmod_read, Int.emod_eq_of_lt h.read_nonneg h.read_lt]

/-- What one move does to the connections in the server. -/
theorem Indexed.conserved (h : Indexed numbuff s) (ht : Trans numbuff s a t) :
    stored numbuff s ++ s.master.pending ++ accepts ⟨s, a, t⟩
      = takes ⟨s, a, t⟩ ++ stored numbuff t ++ t.master.pending := by
  cases ht with
  | accept hm =>
    rw [hm]
    simp [accepts, takes, stored, Master.pending]
  | full hm _ =>
    rw [hm.pending]
    simp [accepts, takes, stored, Master.pending]
  | @put connfd S hm hroom hS =>
    have hput := h.stored_put hroom connfd
    rw [hm.pending]
    simp only [accepts, takes, List.append_nil, List.nil_append, Master.pending]
    exact hput.symm
  | empty hi _ => simp [accepts, takes, stored]
  | @take i hi hfill =>
    have htake := h.stored_take hfill
    simp only [accepts, takes, update_self, List.append_nil, Master.pending_signal]
    rw [htake]
    rfl
  | handled hi => simp [accepts, takes, stored]
  | spuriousFill hi => simp [accepts, takes, stored]
  | spuriousEmpty hm =>
    rw [hm]
    simp [accepts, takes, stored, Master.pending]

theorem Indexed.run {s₀ : Server numthread} (h₀ : Indexed numbuff s₀)
    {tr : List (Move (Server numthread) (Act numthread))} (hrun : Run (step numbuff) s₀ tr s) :
    Indexed numbuff s :=
  hrun.invariant (G := fun _ ↦ True) (fun h hstep _ ↦ h.trans (trans_of_step hstep))
    (fun _ _ ↦ trivial) h₀

theorem Indexed.conserved_run {s₀ : Server numthread} (h₀ : Indexed numbuff s₀)
    {tr : List (Move (Server numthread) (Act numthread))} (hrun : Run (step numbuff) s₀ tr s) :
    stored numbuff s₀ ++ s₀.master.pending ++ accepted tr
      = taken tr ++ stored numbuff s ++ s.master.pending := by
  induction hrun with
  | nil => simp [accepted, taken]
  | @snoc t u tr a hrun hstep ih =>
    -- the equation of the run so far, with that of its last move in the middle
    have hmove := (h₀.run hrun).conserved (trans_of_step hstep)
    calc stored numbuff s₀ ++ s₀.master.pending ++ accepted (tr ++ [⟨t, a, u⟩])
        = (stored numbuff s₀ ++ s₀.master.pending ++ accepted tr) ++ accepts ⟨t, a, u⟩ := by
          simp [accepted]
      _ = taken tr ++ (stored numbuff t ++ t.master.pending ++ accepts ⟨t, a, u⟩) := by
          rw [ih]
          simp
      _ = taken (tr ++ [⟨t, a, u⟩]) ++ stored numbuff u ++ u.master.pending := by
          rw [hmove]
          simp [taken]

/-- A server that has just started holds nothing. -/
theorem Started.stored_eq_nil (h : Started s) : stored numbuff s ++ s.master.pending = [] := by
  rw [stored, h.count, h.master]
  rfl

/-- **The bounded buffer.** In every state that a run reaches, `count` is in range and the indices
are `count` apart, and the accepted descriptors are those taken, in order, followed by the stored
ones and the one in the master's hand. -/
theorem bounded_buffer (hnumbuff : 1 ≤ numbuff) {s₀ : Server numthread} (h₀ : Started s₀)
    {tr : List (Move (Server numthread) (Act numthread))} (hrun : Run (step numbuff) s₀ tr s) :
    0 ≤ s.count ∧ s.count ≤ numbuff ∧
      (s.writeBufferNo - s.readBufferNo) % numbuff = s.count % numbuff ∧
      accepted tr = taken tr ++ stored numbuff s ++ s.master.pending ∧
      (stored numbuff s).length = s.count ∧ s.master.pending.length ≤ 1 := by
  have hindexed := (h₀.indexed hnumbuff).run hrun
  have hconserved := (h₀.indexed hnumbuff).conserved_run hrun
  rw [h₀.stored_eq_nil, List.nil_append] at hconserved
  refine ⟨hindexed.count_nonneg, hindexed.count_le, ?_, hconserved, ?_, s.master.length_pending⟩
  · rw [hindexed.write, Int.emod_sub_emod, add_sub_cancel_left]
  · rw [stored, Ring.length_contents, Int.toNat_of_nonneg hindexed.count_nonneg]

/-- A server with two workers and one buffer. -/
def oneBuffer : Server 2 where
  buff := fun _ ↦ 0
  count := 0
  writeBufferNo := 0
  readBufferNo := 0
  master := .accept
  worker := fun _ ↦ .start

theorem started_oneBuffer : Started oneBuffer := ⟨rfl, rfl, rfl, rfl, fun _ ↦ rfl⟩

/-- One signal wakes both workers, and one of them finds the buffer empty again, while the master
has waited for room. -/
def stealing : List (Act 2) :=
  [.worker 0, .worker 1, .accept 7, .master {0, 1}, .accept 8, .master ∅, .worker 1, .worker 0,
    .master {0}, .accept 9]

theorem bounded_buffer_stealing : ∃ s tr, Run (step 1) oneBuffer tr s ∧ s.count = 1 ∧
    s.worker 0 = .woken ∧ accepted tr = taken tr ++ [8] ++ [9] := by
  obtain ⟨s, hs⟩ := Option.isSome_iff_exists.mp
    (show (replay (step 1) stealing oneBuffer).isSome by decide +kernel)
  have hend : (replay (step 1) stealing oneBuffer).map (fun s ↦
      (s.count, s.worker 0, stored 1 s, s.master.pending)) = some (1, .woken, [8], [9]) := by
    decide +kernel
  rw [hs, Option.map_some, Option.some.injEq, Prod.mk.injEq, Prod.mk.injEq, Prod.mk.injEq] at hend
  obtain ⟨hcount, hworker, hstored, hpending⟩ := hend
  obtain ⟨tr, htr, -⟩ := exists_run_of_replay hs
  obtain ⟨-, -, -, hqueue, -⟩ := bounded_buffer le_rfl started_oneBuffer htr
  rw [hstored, hpending] at hqueue
  exact ⟨s, tr, htr, hcount, hworker, hqueue⟩

end CS537.Pool
