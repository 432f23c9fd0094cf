import CS537.Lib.Transition
import Mathlib.Data.Nat.Init

/-!
# Strong fairness

What an infinite execution has to reach, when a label that is enabled again and again is taken again
and again.
-/

namespace Transition

variable {σ ι : Type*} {step : ι → σ → Option σ} {s t : σ} {state : ℕ → σ} {act : ℕ → ι} {a : ι}
  {n : ℕ}

def Enabled (step : ι → σ → Option σ) (a : ι) (s : σ) : Prop := ∃ t, step a s = some t

/-- Strong fairness of one label. -/
def Fair (step : ι → σ → Option σ) (state : ℕ → σ) (act : ℕ → ι) (a : ι) : Prop :=
  (∀ n, ∃ m, n ≤ m ∧ Enabled step a (state m)) → ∀ n, ∃ m, n ≤ m ∧ act m = a

/-- A label that is disabled from some point on is treated fairly. -/
theorem Fair.of_disabled (h : ∀ m, n ≤ m → ¬Enabled step a (state m)) :
    Fair step state act a := by
  intro henabled
  obtain ⟨m, hm, hen⟩ := henabled n
  exact absurd hen (h m hm)

/-- **The fairness rule.** When only `a` can end `P`, and `a` is enabled again and again as long as
`P` holds, `a` is taken while `P` holds. -/
theorem Fair.exists_taken (hfair : Fair step state act a) {P : σ → Prop} (hP : P (state n))
    (hkeep : ∀ m, n ≤ m → P (state m) → act m ≠ a → P (state (m + 1)))
    (henabled : (∀ m, n ≤ m → P (state m)) →
      ∀ m, n ≤ m → ∃ k, m ≤ k ∧ Enabled step a (state k)) :
    ∃ m, n ≤ m ∧ P (state m) ∧ act m = a := by
  by_contra hnot
  have hall : ∀ m, n ≤ m → P (state m) := by
    intro m hm
    induction m, hm using Nat.le_induction with
    | base => exact hP
    | succ m hm ih => exact hkeep m hm ih fun hact ↦ hnot ⟨m, hm, ih, hact⟩
  have hoften : ∀ k, ∃ m, k ≤ m ∧ Enabled step a (state m) := by
    intro k
    obtain ⟨m, hm, hen⟩ := henabled hall (max n k) (Nat.le_max_left ..)
    exact ⟨m, Nat.le_trans (Nat.le_max_right ..) hm, hen⟩
  obtain ⟨m, hm, hact⟩ := hfair hoften n
  exact hnot ⟨m, hm, hall m hm, hact⟩

namespace Execution

/-- The invariant rule for executions. -/
theorem invariant (h : Execution step s state act) {P : σ → Prop} {G : Move σ ι → Prop}
    (hkeep : ∀ {s a t}, P s → step a s = some t → G ⟨s, a, t⟩ → P t)
    (hG : ∀ n, G ⟨state n, act n, state (n + 1)⟩) (hs : P s) (n : ℕ) : P (state n) := by
  induction n with
  | zero => rwa [h.start]
  | succ n ih => exact hkeep ih (h.move n) (hG n)

/-- What every move keeps holds from the state on in which it holds. -/
theorem stable (h : Execution step s state act) {P : σ → Prop}
    (hkeep : ∀ {s a t}, P s → step a s = some t → P t) (hn : P (state n)) {m : ℕ} (hm : n ≤ m) :
    P (state m) := by
  induction m, hm using Nat.le_induction with
  | base => exact hn
  | succ m _ ih => exact hkeep ih (h.move m)

end Execution

/-- A replay, continued forever by a label that changes nothing. -/
theorem exists_execution_of_replay {as : List ι} (h : replay step as s = some t)
    (ha : step a t = some t) : ∃ state act, Execution step s state act ∧
      (∀ n, act n = as.getD n a) ∧ ∀ n, replay step (as.take n) s = some (state n) := by
  induction as generalizing s with
  | nil =>
    obtain rfl : s = t := by simpa [replay] using h
    refine ⟨fun _ ↦ s, fun _ ↦ a, ⟨rfl, fun _ ↦ ha⟩, fun _ ↦ rfl, fun n ↦ ?_⟩
    rw [List.take_nil, replay]
  | cons b as ih =>
    obtain ⟨u, hu, htail⟩ := Option.bind_eq_some_iff.mp h
    obtain ⟨state, act, hexec, hact, hstate⟩ := ih htail
    refine ⟨fun n ↦ n.casesOn s state, fun n ↦ n.casesOn b act, ⟨rfl, fun n ↦ ?_⟩, fun n ↦ ?_,
      fun n ↦ ?_⟩
    · cases n with
      | zero => exact hu.trans (congrArg some hexec.start.symm)
      | succ n => exact hexec.move n
    · cases n with
      | zero => rfl
      | succ n => exact hact n
    · cases n with
      | zero => rfl
      | succ n => rw [List.take_succ_cons, replay, hu, Option.bind_some, hstate]

end Transition
