import Mathlib.Data.List.Induction
import Mathlib.Order.Basic

/-!
# Runs of labelled partial transitions

A system is a function `step : ι → σ → Option σ`: under the label `a` the state `s` moves to `t`
when `step a s = some t`, and the label is not enabled otherwise. All nondeterminism is in the
labels, so a run is replayed by executing its label list.

A run records its moves, source and target included, because the properties stated about runs
speak about what happened between two moves and not only about the last state.
-/

namespace Transition

variable {σ ι : Type*}

/-- One transition of a run. -/
structure Move (σ ι : Type*) where
  src : σ
  act : ι
  dst : σ

/-- `Run step s tr t`: the moves `tr`, each enabled, lead from `s` to `t`. -/
inductive Run (step : ι → σ → Option σ) : σ → List (Move σ ι) → σ → Prop
  | nil (s : σ) : Run step s [] s
  | snoc {s t u : σ} {tr : List (Move σ ι)} {a : ι} :
      Run step s tr t → step a t = some u → Run step s (tr ++ [⟨t, a, u⟩]) u

variable {step : ι → σ → Option σ}

namespace Run

theorem single {s t : σ} {a : ι} (h : step a s = some t) : Run step s [⟨s, a, t⟩] t :=
  (Run.nil s).snoc h

theorem append {s t u : σ} {tr tr' : List (Move σ ι)} (h : Run step s tr t)
    (h' : Run step t tr' u) : Run step s (tr ++ tr') u := by
  induction h' with
  | nil => rwa [List.append_nil]
  | snoc _ hstep ih =>
    rw [← List.append_assoc]
    exact ih.snoc hstep

theorem cons {s t u : σ} {a : ι} {tr : List (Move σ ι)} (h : step a s = some t)
    (h' : Run step t tr u) : Run step s (⟨s, a, t⟩ :: tr) u :=
  (single h).append h'

/-- Every recorded move was enabled. -/
theorem enabled {s t : σ} {tr : List (Move σ ι)} (h : Run step s tr t) :
    ∀ m ∈ tr, step m.act m.src = some m.dst := by
  induction h with
  | nil => simp
  | snoc _ hstep ih =>
    intro m hm
    rcases List.mem_append.mp hm with hm | hm
    · exact ih m hm
    · rw [List.mem_singleton.mp hm]
      exact hstep

theorem nil_inv {s t : σ} (h : Run step s [] t) : t = s := by
  generalize htr : ([] : List (Move σ ι)) = tr at h
  cases h with
  | nil => rfl
  | snoc _ _ => exact absurd htr (by simp)

theorem snoc_inv {s u : σ} {tr : List (Move σ ι)} {m : Move σ ι}
    (h : Run step s (tr ++ [m]) u) :
    Run step s tr m.src ∧ step m.act m.src = some m.dst ∧ u = m.dst := by
  generalize htr : tr ++ [m] = tr' at h
  cases h with
  | nil => exact absurd htr (by simp)
  | snoc hrun hstep =>
    obtain ⟨rfl, hm⟩ := List.append_inj' htr rfl
    rw [List.singleton_inj] at hm
    subst hm
    exact ⟨hrun, hstep, rfl⟩

/-- A run over `tr ++ tr'` passes through the state after `tr`. -/
theorem split {s u : σ} {tr tr' : List (Move σ ι)} (h : Run step s (tr ++ tr') u) :
    ∃ t, Run step s tr t ∧ Run step t tr' u := by
  induction tr' using List.reverseRecOn generalizing u with
  | nil => exact ⟨u, by rwa [List.append_nil] at h, .nil u⟩
  | append_singleton tr' m ih =>
    rw [← List.append_assoc] at h
    obtain ⟨hrun, hstep, rfl⟩ := h.snoc_inv
    obtain ⟨t, ht, ht'⟩ := ih hrun
    exact ⟨t, ht, ht'.snoc hstep⟩

/-- A run up to one of its moves, the move, and the run after it. -/
theorem split_at {s u : σ} {tr tr' : List (Move σ ι)} {m : Move σ ι}
    (h : Run step s (tr ++ m :: tr') u) :
    Run step s tr m.src ∧ step m.act m.src = some m.dst ∧ Run step m.dst tr' u := by
  rw [← List.singleton_append, ← List.append_assoc] at h
  obtain ⟨t, hfst, hpost⟩ := h.split
  obtain ⟨hpre, hstep, rfl⟩ := hfst.snoc_inv
  exact ⟨hpre, hstep, hpost⟩

/-- **The invariant rule.** What every move allowed by `G` keeps, a run of such moves keeps. -/
theorem invariant {P : σ → Prop} {G : Move σ ι → Prop}
    (hkeep : ∀ {s a t}, P s → step a s = some t → G ⟨s, a, t⟩ → P t)
    {s t : σ} {tr : List (Move σ ι)} (h : Run step s tr t) (hG : ∀ m ∈ tr, G m) (hs : P s) :
    P t := by
  induction h with
  | nil => exact hs
  | snoc _ hstep ih =>
    exact hkeep (ih fun m hm ↦ hG m (List.mem_append_left _ hm)) hstep (hG _ (by simp))

/-- What holds at the start and after every move holds before every move. -/
theorem src_of_dst {P : σ → Prop} {s t : σ} {tr : List (Move σ ι)} (h : Run step s tr t)
    (hs : P s) (htr : ∀ m ∈ tr, P m.dst) : P t ∧ ∀ m ∈ tr, P m.src := by
  induction h with
  | nil => exact ⟨hs, by simp⟩
  | @snoc u v tr a _ _ ih =>
    obtain ⟨hu, hsrc⟩ := ih fun m hm ↦ htr m (List.mem_append_left _ hm)
    refine ⟨htr ⟨u, a, v⟩ (by simp), fun m hm ↦ ?_⟩
    rcases List.mem_append.mp hm with hm | hm
    · exact hsrc m hm
    · rw [List.mem_singleton.mp hm]
      exact hu

end Run

/-! ## Reachability -/

/-- Some run of moves satisfying `G` leads from a state satisfying `init` to `s`. -/
def ReachableBy (step : ι → σ → Option σ) (init : σ → Prop) (G : Move σ ι → Prop) (s : σ) : Prop :=
  ∃ s₀ tr, init s₀ ∧ Run step s₀ tr s ∧ ∀ m ∈ tr, G m

/-- Reachability by arbitrary moves. -/
def Reachable (step : ι → σ → Option σ) (init : σ → Prop) (s : σ) : Prop :=
  ReachableBy step init (fun _ ↦ True) s

variable {init : σ → Prop} {G : Move σ ι → Prop}

theorem ReachableBy.refl {s : σ} (h : init s) : ReachableBy step init G s :=
  ⟨s, [], h, .nil s, by simp⟩

theorem ReachableBy.snoc {s t : σ} {a : ι} (h : ReachableBy step init G s)
    (hstep : step a s = some t) (hG : G ⟨s, a, t⟩) : ReachableBy step init G t := by
  obtain ⟨s₀, tr, h₀, hrun, htr⟩ := h
  refine ⟨s₀, _, h₀, hrun.snoc hstep, fun m hm ↦ ?_⟩
  rcases List.mem_append.mp hm with hm | hm
  · exact htr m hm
  · rwa [List.mem_singleton.mp hm]

theorem ReachableBy.run {s t : σ} {tr : List (Move σ ι)} (h : ReachableBy step init G s)
    (hrun : Run step s tr t) (hG : ∀ m ∈ tr, G m) : ReachableBy step init G t := by
  obtain ⟨s₀, tr₀, h₀, hrun₀, htr⟩ := h
  refine ⟨s₀, _, h₀, hrun₀.append hrun, fun m hm ↦ ?_⟩
  exact (List.mem_append.mp hm).elim (htr m) (hG m)

theorem ReachableBy.mono {G' : Move σ ι → Prop} {s : σ} (h : ReachableBy step init G s)
    (hG : ∀ m, G m → G' m) : ReachableBy step init G' s := by
  obtain ⟨s₀, tr, h₀, hrun, htr⟩ := h
  exact ⟨s₀, tr, h₀, hrun, fun m hm ↦ hG m (htr m hm)⟩

theorem ReachableBy.reachable {s : σ} (h : ReachableBy step init G s) : Reachable step init s :=
  h.mono fun _ _ ↦ trivial

/-- An invariant of the allowed moves holds in every state they reach. -/
theorem ReachableBy.invariant {P : σ → Prop} {s : σ} (h : ReachableBy step init G s)
    (h₀ : ∀ s, init s → P s)
    (hkeep : ∀ {s a t}, P s → step a s = some t → G ⟨s, a, t⟩ → P t) : P s := by
  obtain ⟨s₀, tr, hinit, hrun, htr⟩ := h
  exact hrun.invariant hkeep htr (h₀ s₀ hinit)

/-! ## Replaying labels -/

/-- The state after executing the labels in order, when all are enabled. -/
def replay (step : ι → σ → Option σ) : List ι → σ → Option σ
  | [], s => some s
  | a :: as, s => (step a s).bind (replay step as)

/-- The moves of the replay, up to the first label that is not enabled. -/
def moves (step : ι → σ → Option σ) : List ι → σ → List (Move σ ι)
  | [], _ => []
  | a :: as, s =>
    match step a s with
    | none => []
    | some t => ⟨s, a, t⟩ :: moves step as t

theorem run_moves {as : List ι} {s t : σ} (h : replay step as s = some t) :
    Run step s (moves step as s) t ∧ (moves step as s).map Move.act = as := by
  induction as generalizing s with
  | nil =>
    obtain rfl : s = t := by simpa [replay] using h
    exact ⟨.nil _, rfl⟩
  | cons a as ih =>
    obtain ⟨u, hu, htail⟩ := Option.bind_eq_some_iff.mp h
    obtain ⟨hrun, hact⟩ := ih htail
    rw [moves, hu]
    exact ⟨hrun.cons hu, by rw [List.map_cons, hact]⟩

/-- A successful replay is a run, and its moves carry exactly the given labels. -/
theorem exists_run_of_replay {as : List ι} {s t : σ} (h : replay step as s = some t) :
    ∃ tr, Run step s tr t ∧ tr.map Move.act = as := ⟨_, run_moves h⟩

theorem run_of_isSome {as : List ι} {s : σ} (h : (replay step as s).isSome) :
    Run step s (moves step as s) ((replay step as s).getD s) := by
  refine (run_moves ?_).1
  rw [← Option.get_eq_getD (h := h), Option.some_get]

theorem ReachableBy.replay {as : List ι} {s t : σ} {A : ι → Prop}
    (h : ReachableBy step init (fun m ↦ A m.act) s) (hrun : Transition.replay step as s = some t)
    (hA : ∀ a ∈ as, A a) : ReachableBy step init (fun m ↦ A m.act) t := by
  obtain ⟨tr, htr, hact⟩ := exists_run_of_replay hrun
  refine h.run htr fun m hm ↦ hA _ ?_
  rw [← hact]
  exact List.mem_map_of_mem hm

/-- A replay that also requires every state it passes through to satisfy `ok`. -/
def replayIn (step : ι → σ → Option σ) (ok : σ → Bool) : List ι → σ → Option σ
  | [], s => some s
  | a :: as, s => (step a s).bind fun t ↦ if ok t then replayIn step ok as t else none

theorem exists_run_of_replayIn {ok : σ → Bool} {as : List ι} {s t : σ}
    (h : replayIn step ok as s = some t) :
    ∃ tr, Run step s tr t ∧ tr.map Move.act = as ∧ ∀ m ∈ tr, ok m.dst := by
  induction as generalizing s with
  | nil =>
    obtain rfl : s = t := by simpa [replayIn] using h
    exact ⟨[], .nil _, rfl, by simp⟩
  | cons a as ih =>
    obtain ⟨u, hu, htail⟩ := Option.bind_eq_some_iff.mp h
    obtain ⟨hok, htail⟩ := Option.ite_none_right_eq_some.mp htail
    obtain ⟨tr, hrun, hact, htr⟩ := ih htail
    refine ⟨⟨s, a, u⟩ :: tr, hrun.cons hu, by rw [List.map_cons, hact], fun m hm ↦ ?_⟩
    rcases List.mem_cons.mp hm with rfl | hm
    · exact hok
    · exact htr m hm

/-! ## Infinite executions and rankings -/

/-- An infinite execution from `s`, given by the states it passes through and the labels taken. -/
structure Execution (step : ι → σ → Option σ) (s : σ) (state : ℕ → σ) (act : ℕ → ι) : Prop where
  start : state 0 = s
  move : ∀ n, step (act n) (state n) = some (state (n + 1))

/-- Some execution of `allow`ed labels from `s` stays inside `stay` and takes `tick` moves
forever. -/
def Diverges (step : ι → σ → Option σ) (allow tick : ι → Prop) (stay : σ → Prop) (s : σ) : Prop :=
  ∃ state act, Execution step s state act ∧ (∀ n, allow (act n)) ∧ (∀ n, stay (state n)) ∧
    ∀ n, ∃ m, n ≤ m ∧ tick (act m)

/-- **The ranking rule.** If, among the states of `stay`, `tick` moves lower a rank that no other
move raises, no execution takes `tick` moves forever there. -/
theorem not_diverges_of_rank {allow tick : ι → Prop} {stay P : σ → Prop} (rank : σ → ℕ)
    (hkeep : ∀ {s a t}, P s → stay s → stay t → step a s = some t → allow a → P t)
    (hle : ∀ {s a t}, P s → stay s → stay t → step a s = some t → allow a → rank t ≤ rank s)
    (hlt : ∀ {s a t}, P s → stay s → stay t → step a s = some t → tick a → rank t < rank s)
    {s : σ} (hs : P s) : ¬Diverges step allow tick stay s := by
  rintro ⟨state, act, hexec, hallow, hstay, htick⟩
  have hP : ∀ n, P (state n) := by
    intro n
    induction n with
    | zero => rwa [hexec.start]
    | succ n ih => exact hkeep ih (hstay n) (hstay _) (hexec.move n) (hallow n)
  have hmono : ∀ n k, rank (state (n + k)) ≤ rank (state n) := by
    intro n k
    induction k with
    | zero => exact Nat.le_refl _
    | succ k ih =>
      exact Nat.le_trans (hle (hP _) (hstay _) (hstay _) (hexec.move (n + k)) (hallow _)) ih
  -- the rank would have to drop below every bound
  have hdrop : ∀ k, ∃ n, rank (state n) + k ≤ rank (state 0) := by
    intro k
    induction k with
    | zero => exact ⟨0, Nat.le_refl _⟩
    | succ k ih =>
      obtain ⟨n, hn⟩ := ih
      obtain ⟨m, hnm, hm⟩ := htick n
      obtain ⟨j, rfl⟩ := Nat.exists_eq_add_of_le hnm
      have h1 := hlt (hP _) (hstay _) (hstay _) (hexec.move (n + j)) hm
      have h2 := hmono n j
      exact ⟨n + j + 1, by omega⟩
  obtain ⟨n, hn⟩ := hdrop (rank (state 0) + 1)
  omega

/-- A set of states closed under one always enabled `tick` label is a divergence. -/
theorem diverges_of_closed {allow tick : ι → Prop} {stay P : σ → Prop} (a : ι) (hallow : allow a)
    (ha : tick a) (hP : ∀ s, P s → stay s ∧ ∃ t, step a s = some t ∧ P t) {s : σ} (hs : P s) :
    Diverges step allow tick stay s := by
  choose next hnext using fun s : {s // P s} ↦ (hP s.1 s.2).2
  let iter : ℕ → {s // P s} := fun n ↦ Nat.rec ⟨s, hs⟩ (fun _ t ↦ ⟨next t, (hnext t).2⟩) n
  exact ⟨fun n ↦ (iter n).1, fun _ ↦ a, ⟨rfl, fun n ↦ (hnext (iter n)).1⟩, fun _ ↦ hallow,
    fun n ↦ (hP _ (iter n).2).1, fun n ↦ ⟨n, Nat.le_refl n, ha⟩⟩

/-! ## Inevitability -/

/-- Every execution from `s` reaches `goal` in at most `n` moves, and until then it can move and
its moves satisfy `G`. -/
def Within (step : ι → σ → Option σ) (G : Move σ ι → Prop) (goal : σ → Prop) : ℕ → σ → Prop
  | 0, s => goal s
  | n + 1, s => goal s ∨ ((∃ a t, step a s = some t) ∧
      ∀ a t, step a s = some t → G ⟨s, a, t⟩ ∧ Within step G goal n t)

theorem Within.of_goal {G : Move σ ι → Prop} {goal : σ → Prop} {s : σ} (h : goal s) (n : ℕ) :
    Within step G goal n s := by
  cases n with
  | zero => exact h
  | succ n => exact .inl h

/-- From a set of states that no move leaves and that misses the goal, the goal is not reached. -/
theorem not_within_of_closed {G : Move σ ι → Prop} {goal P : σ → Prop} (hgoal : ∀ s, P s → ¬goal s)
    (hkeep : ∀ {s a t}, P s → step a s = some t → P t) {n : ℕ} {s : σ} (hs : P s) :
    ¬Within step G goal n s := by
  induction n generalizing s with
  | zero => exact hgoal s hs
  | succ n ih =>
    rintro (hdone | ⟨⟨a, t, hstep⟩, hall⟩)
    · exact hgoal s hs hdone
    · exact ih (hkeep hs hstep) (hall a t hstep).2

/-- Some run comes to the goal. -/
theorem Within.exists_run {G : Move σ ι → Prop} {goal : σ → Prop} {n : ℕ} {s : σ}
    (h : Within step G goal n s) :
    ∃ tr t, Run step s tr t ∧ (∀ m ∈ tr, ¬goal m.src) ∧ goal t := by
  induction n generalizing s with
  | zero => exact ⟨[], s, .nil s, by simp, h⟩
  | succ n ih =>
    by_cases hgoal : goal s
    · exact ⟨[], s, .nil s, by simp, hgoal⟩
    · obtain ⟨⟨a, t, hstep⟩, hall⟩ := h.resolve_left hgoal
      obtain ⟨tr, u, hrun, hsrc, hu⟩ := ih (hall a t hstep).2
      exact ⟨_, u, hrun.cons hstep, List.forall_mem_cons.mpr ⟨hgoal, hsrc⟩, hu⟩

/-- A run that misses the goal uses up the moves. -/
theorem Within.run {G : Move σ ι → Prop} {goal : σ → Prop} {n : ℕ} {s t : σ} {tr : List (Move σ ι)}
    (h : Within step G goal n s) (hrun : Run step s tr t) (hgoal : ∀ m ∈ tr, ¬goal m.src) :
    ∃ k, k + tr.length = n ∧ Within step G goal k t := by
  induction hrun with
  | nil => exact ⟨n, rfl, h⟩
  | @snoc u v tr a _ hstep ih =>
    rw [List.forall_mem_append, List.forall_mem_singleton] at hgoal
    obtain ⟨k, hk, hu⟩ := ih hgoal.1
    cases k with
    | zero => exact absurd hu hgoal.2
    | succ k =>
      refine ⟨k, ?_, ?_⟩
      · rw [List.length_append, List.length_singleton]
        omega
      · exact ((hu.resolve_left hgoal.2).2 _ _ hstep).2

/-- From states that lead back to themselves the goal can be missed for ever. -/
theorem not_within_of_loop {G : Move σ ι → Prop} {goal P : σ → Prop}
    (hloop : ∀ s, P s → ∃ tr t, Run step s tr t ∧ tr ≠ [] ∧ (∀ m ∈ tr, ¬goal m.src) ∧ P t)
    {n : ℕ} {s : σ} (hs : P s) : ¬Within step G goal n s := by
  induction n using Nat.strongRecOn generalizing s with
  | ind n ih =>
    intro h
    obtain ⟨tr, t, hrun, hne, hgoal, ht⟩ := hloop s hs
    obtain ⟨k, hk, hwithin⟩ := h.run hrun hgoal
    have hpos := List.length_pos_iff.mpr hne
    exact ih k (by omega) ht hwithin

/-- Two systems that agree on a set of states that no move leaves. -/
theorem within_congr {step' : ι → σ → Option σ} {G : Move σ ι → Prop} {goal P : σ → Prop}
    (heq : ∀ s, P s → ∀ a, step' a s = step a s) (hkeep : ∀ {s a t}, P s → step a s = some t → P t)
    {n : ℕ} {s : σ} (hs : P s) : Within step' G goal n s ↔ Within step G goal n s := by
  induction n generalizing s with
  | zero => rfl
  | succ n ih =>
    rw [Within, Within]
    simp only [heq s hs]
    refine or_congr Iff.rfl (and_congr Iff.rfl ?_)
    exact forall₃_congr fun a t hstep ↦ and_congr Iff.rfl (ih (hkeep hs hstep))

/-- A rank that every move from `P` lowers, until the goal is reached, bounds the moves. -/
theorem within_of_rank {G : Move σ ι → Prop} {goal P : σ → Prop} (rank : σ → ℕ)
    (hmove : ∀ {s}, P s → ¬goal s → ∃ a t, step a s = some t)
    (hP : ∀ {s a t}, P s → ¬goal s → step a s = some t →
      G ⟨s, a, t⟩ ∧ (goal t ∨ P t ∧ rank t < rank s))
    {s : σ} (hs : P s) {n : ℕ} (hn : rank s < n) : Within step G goal n s := by
  induction n generalizing s with
  | zero => omega
  | succ n ih =>
    by_cases hgoal : goal s
    · exact .inl hgoal
    · refine .inr ⟨hmove hs hgoal, fun a t hstep ↦ ?_⟩
      obtain ⟨hG, hnext⟩ := hP hs hgoal hstep
      refine ⟨hG, ?_⟩
      rcases hnext with ht | ⟨ht, hrank⟩
      · exact .of_goal ht n
      · exact ih ht (by omega)

end Transition
