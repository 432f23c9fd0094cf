import CS537.Mlfq.Charging
import CS537.Mlfq.Lives

/-!
# Whom `kill` reaches

`kill` looks for its pid in every slot, whatever the state of the slot, and a free slot has a pid
too: 0 if it was reaped or never used, the old one after a failed `fork`. The flag it sets there is
found by the next `allocproc`, which does not reset it.
-/

namespace CS537.Mlfq

open Function Transition

variable {ncpu : ℕ} {s t u : Kernel ncpu} {a : Act ncpu} {i : Slot}
variable {past tr mid : List (Move (Kernel ncpu) (Act ncpu))}

/-- A `kill` names the pid, or the process in the slot takes a fatal trap. -/
def Targets (m : Move (Kernel ncpu) (Act ncpu)) (i : Slot) (pid : ℤ) : Prop :=
  (∃ c, m.act = .kill c pid) ∨ ∃ c, m.act = .fault c ∧ m.src.caller c = some i

/-- Whoever is marked killed at the end of the run has been a target since its creation. -/
def JustlyKilled (i : Slot) (mid : List (Move (Kernel ncpu) (Act ncpu))) (u : Kernel ncpu) : Prop :=
  (u.proc i).state ≠ .unused → (u.proc i).killed → ∃ m ∈ mid, Targets m i (u.proc i).pid

/-- A process keeps its pid, and only the moves that target it mark it killed. -/
theorem killed_step (h : Shape s) (hstep : step a s = some t) (hcreate : ¬Creates ⟨s, a, t⟩ i)
    (hstate : (t.proc i).state ≠ .unused) :
    (s.proc i).state ≠ .unused ∧ (t.proc i).pid = (s.proc i).pid ∧
      ((t.proc i).killed → (s.proc i).killed ∨ Targets ⟨s, a, t⟩ i (s.proc i).pid) := by
  rcases pid_step h hstep hstate with ⟨hused, hpid⟩ | hnew
  · refine ⟨hused, hpid, fun hk ↦ ?_⟩
    cases lifeMove h hstep i with
    | same _ hid => exact .inl (hid.killed ▸ hk)
    | create _ hsrc => exact absurd hsrc hused
    | publish _ _ _ _ _ hkilled => exact .inl (hkilled ▸ hk)
    | exit _ _ _ _ _ hkilled => exact .inl (hkilled ▸ hk)
    | orphan _ _ _ _ _ _ _ hkilled => exact .inl (hkilled ▸ hk)
    | kill ha hmatch => exact .inr (.inl ⟨_, by rw [hmatch, ha]⟩)
    | fault ha hq => exact .inr (.inr ⟨_, ha, hq⟩)
    | reap _ _ _ hdst => exact absurd hdst hstate
  · exact absurd hnew hcreate

/-- A process that does not start out as killed is justly killed. -/
theorem Lifetime.justlyKilled (h : Lifetime i past mid s u) (hs : (s.proc i).killed = false) :
    JustlyKilled i mid u := by
  have hreach := h.reachable
  have hrun := h.run
  have hsame := h.same
  clear h
  induction hrun with
  | nil =>
    intro _ hk
    rw [hs] at hk
    cases hk
  | @snoc v w tr a hrun hstep ih =>
    intro hstate hk
    have hv := Shape.of_reachable (hreach.run hrun fun _ _ ↦ trivial)
    obtain ⟨hused, hpid, hkilled⟩ := killed_step hv hstep (hsame ⟨v, a, w⟩ (by simp)) hstate
    rw [hpid]
    -- the flag was set before this move, or by it
    rcases hkilled hk with hk | htarget
    · obtain ⟨m, hm, htarget⟩ := ih (fun m hm ↦ hsame m (List.mem_append_left _ hm)) hused hk
      exact ⟨m, List.mem_append_left _ hm, htarget⟩
    · exact ⟨⟨v, a, w⟩, by simp, htarget⟩

theorem killed_of_creates (hstep : step a s = some t) (h : Creates ⟨s, a, t⟩ i) :
    (t.proc i).killed = (s.proc i).killed := by
  obtain ⟨c, q, rfl, -, rfl⟩ := creates_inv hstep h
  refine (setPos_sameId q i _).killed.trans ?_
  rw [bumpPid_proc, setProc_proc, update_self]
  rfl

theorem boot_killed (i : Slot) : ((boot ncpu).proc i).killed = false := by
  obtain ⟨_, _, hp⟩ := boot_proc ncpu i
  rw [hp]
  rfl

/-- **`kill` reaches only its target**, in every state of a run, if and only if every `allocproc`
of the run finds a slot with the flag cleared. -/
theorem justly_killed_iff (ncpu : ℕ) (tr : List (Move (Kernel ncpu) (Act ncpu)))
    (t : Kernel ncpu) (h : Run step (boot ncpu) tr t) :
    (∀ (i : Slot) (past mid post : List (Move (Kernel ncpu) (Act ncpu))) (s u : Kernel ncpu),
      tr = past ++ mid ++ post → Lifetime i past mid s u → JustlyKilled i mid u) ↔
    ∀ m ∈ tr, ∀ i, Creates m i → (m.src.proc i).killed = false := by
  constructor
  · intro hall m hm i hcreate
    obtain ⟨pre, post, rfl⟩ := List.append_of_mem hm
    obtain ⟨hpre, hstep, -⟩ := h.split_at
    -- the life that begins with this `allocproc`, looked at before any other move
    have hlife : Lifetime i (pre ++ [m]) [] m.dst m.dst :=
      ⟨hpre.snoc hstep, .inr ⟨pre, m, rfl, hcreate⟩, .nil _, by simp⟩
    have hjust := hall i (pre ++ [m]) [] post m.dst m.dst (by simp) hlife
    rw [← killed_of_creates hstep hcreate]
    by_contra hkilled
    obtain ⟨_, hnone, -⟩ := hjust (by rw [hcreate.2]; simp) (by simpa using hkilled)
    cases hnone
  · intro hclear i past mid post s u htr hlife
    refine hlife.justlyKilled ?_
    have hhistory := hlife.history
    rcases hlife.created with rfl | ⟨pre, m, rfl, hcreate⟩
    · obtain rfl := hhistory.nil_inv
      exact boot_killed i
    · obtain ⟨-, hstep, rfl⟩ := hhistory.snoc_inv
      rw [killed_of_creates hstep hcreate]
      exact hclear m (by rw [htr]; simp) i hcreate

section Example

/-- The first process has made a slot for its child. -/
def embryoChild : List (Act 1) := [.acquire 0, .scan 0, .resume 0, .allocproc 0]

/-- The first process calls `kill(0)`, which finds the first free slot, and forks a child. -/
def killZero : List (Act 1) := [.acquire 0, .scan 0, .resume 0, .kill 0 0]

theorem killZero_replay : ((replay step killZero (boot 1)).bind fun s ↦
    (step (.allocproc 0) s).bind fun u ↦ (step (.fork 0) u).map fun t ↦
      ([(s.proc firstChild).state, (u.proc firstChild).state, (t.proc firstChild).state],
        (t.proc firstChild).killed)) = some ([.unused, .embryo, .runnable], true) := by
  decide +kernel

theorem exists_killed_child : ∃ (past : List (Move (Kernel 1) (Act 1))) (u t : Kernel 1),
    Lifetime firstChild past [⟨u, .fork 0, t⟩] u t ∧ (t.proc firstChild).state = .runnable ∧
      (t.proc firstChild).killed := by
  obtain ⟨s, hs, hrest⟩ := Option.bind_eq_some_iff.mp killZero_replay
  obtain ⟨u, hu, hrest⟩ := Option.bind_eq_some_iff.mp hrest
  obtain ⟨t, ht, hval⟩ := Option.map_eq_some_iff.mp hrest
  obtain ⟨⟨hs₁, hu₁, ht₁⟩, hkilled⟩ : ((s.proc firstChild).state = .unused ∧
      (u.proc firstChild).state = .embryo ∧ (t.proc firstChild).state = .runnable) ∧
        (t.proc firstChild).killed = true := by
    simpa using hval
  obtain ⟨pre, hpre, -⟩ := exists_run_of_replay hs
  refine ⟨pre ++ [⟨s, .allocproc 0, u⟩], u, t, ⟨hpre.snoc hu, .inr ⟨pre, _, rfl, hs₁, hu₁⟩,
    .single ht, fun m hm hc ↦ ?_⟩, ht₁, hkilled⟩
  rw [List.mem_singleton.mp hm] at hc
  cases hu₁.symm.trans hc.1

/-- The first process forks a child, from the state in which `allocproc` has made its slot, and kills
it. -/
def killChild : List (Act 1) := [.fork 0, .kill 0 2]

theorem justly_killed_child : ∃ (past mid : List (Move (Kernel 1) (Act 1))) (s u : Kernel 1),
    Lifetime firstChild past mid s u ∧ (u.proc firstChild).state = .runnable ∧
      (u.proc firstChild).killed ∧ JustlyKilled firstChild mid u := by
  have hpast : (replay step embryoChild (boot 1)).isSome := by decide +kernel
  have hmid : (replay step killChild ((replay step embryoChild (boot 1)).getD (boot 1))).isSome := by
    decide +kernel
  have hrun := run_of_isSome hpast
  have hrest := run_of_isSome hmid
  have hlife : Lifetime firstChild _ _ _ _ :=
    ⟨hrun, .inr ⟨moves step (embryoChild.take 3) (boot 1), _, rfl, by decide +kernel⟩, hrest,
      by decide +kernel⟩
  refine ⟨_, _, _, _, hlife, by decide +kernel, by decide +kernel, ?_⟩
  exact (justly_killed_iff 1 _ _ (hrun.append hrest)).mpr (by decide +kernel) firstChild _ _ [] _ _
    (List.append_nil _).symm hlife

/-- The child starts its life as killed. -/
theorem not_justly_killed : ¬∀ (i : Slot) (past mid : List (Move (Kernel 1) (Act 1)))
    (s u : Kernel 1), Lifetime i past mid s u → JustlyKilled i mid u := by
  intro hall
  obtain ⟨past, u, t, hlife, hstate, hkilled⟩ := exists_killed_child
  obtain ⟨m, hm, htarget⟩ := hall _ _ _ _ _ hlife (by rw [hstate]; simp) hkilled
  rw [List.mem_singleton.mp hm] at htarget
  rcases htarget with ⟨c, ha⟩ | ⟨c, ha, -⟩ <;> cases ha

end Example

end CS537.Mlfq
