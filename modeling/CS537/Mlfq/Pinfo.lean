import CS537.Mlfq.Charging
import Mathlib.Data.List.DropRight

/-!
# The ticks that `getpinfo` reports

`getpinfo` copies `timeticks` out of the process table, which are raised by one for every dispatch
at their level and set to 0 with a new process. They count the dispatches as long as no promotion
writes into them anything else than what stands there, and as long as they do not wrap: a promotion
into a level sets the ticks of the level to one slice, however many slices the process has used
there.
-/

namespace CS537.Mlfq

open Function Transition Wrapping

/-- The numbers of `enum procstate`. -/
def ProcState.toNat : ProcState → ℕ
  | .unused => 0
  | .embryo => 1
  | .sleeping => 2
  | .runnable => 3
  | .running => 4
  | .zombie => 5

variable {ncpu : ℕ}

variable {s t : Kernel ncpu} {a : Act ncpu} {i : Slot} {l : ℤ}
variable {tr : List (Move (Kernel ncpu) (Act ncpu))}

/-! ## The history of a slot -/

instance (m : Move (Kernel ncpu) (Act ncpu)) : DecidablePred (Creates m) := fun _ ↦
  inferInstanceAs (Decidable (_ ∧ _))

/-- The moves since the process of the slot was created. -/
def sinceCreation (i : Slot) (tr : List (Move (Kernel ncpu) (Act ncpu))) :
    List (Move (Kernel ncpu) (Act ncpu)) :=
  tr.rtakeWhile fun m ↦ ¬Creates m i

/-- How often the scheduler has dispatched the process of the slot at the level. -/
def dispatchesAt (i : Slot) (l : ℤ) (tr : List (Move (Kernel ncpu) (Act ncpu))) : ℕ :=
  (sinceCreation i tr).countP fun m ↦ Dispatches m i ∧ (m.src.proc i).level = l

theorem dispatchesAt_of_creates {m : Move (Kernel ncpu) (Act ncpu)} (h : Creates m i) :
    dispatchesAt i l (tr ++ [m]) = 0 := by
  rw [dispatchesAt, sinceCreation, List.rtakeWhile_concat]
  simp [h]

theorem dispatchesAt_snoc {m : Move (Kernel ncpu) (Act ncpu)} (h : ¬Creates m i) :
    dispatchesAt i l (tr ++ [m]) = dispatchesAt i l tr +
      if Dispatches m i ∧ (m.src.proc i).level = l then 1 else 0 := by
  rw [dispatchesAt, sinceCreation, List.rtakeWhile_concat]
  simp [h, dispatchesAt, sinceCreation, List.countP_append, List.countP_singleton]

theorem dispatchesAt_of_not_dispatches {m : Move (Kernel ncpu) (Act ncpu)} (h : ¬Creates m i)
    (hd : ¬Dispatches m i) : dispatchesAt i l (tr ++ [m]) = dispatchesAt i l tr := by
  rw [dispatchesAt_snoc h, if_neg fun hl ↦ hd hl.1, add_zero]

/-! ## What the counters count -/

/-- A check that moves the process of the slot up. -/
def Boosts (m : Move (Kernel ncpu) (Act ncpu)) (i : Slot) : Prop :=
  (∃ c, m.act = .boost c) ∧ (m.src.proc i).state = .runnable ∧ Starved i m.src

/-- The ticks of the level above, which a promotion overwrites, are one slice already. -/
def OneSlice (i : Slot) (s : Kernel ncpu) : Prop :=
  (s.proc i).timeticks ((s.proc i).level - 1) = mlpqTimeticks ((s.proc i).level - 1)

instance (i : Slot) (s : Kernel ncpu) : Decidable (OneSlice i s) :=
  inferInstanceAs (Decidable (_ = _))

/-- A dispatch that finds the ticks of the level at the largest `int`. -/
def Overflows (m : Move (Kernel ncpu) (Act ncpu)) (i : Slot) : Prop :=
  Dispatches m i ∧ (m.src.proc i).timeticks (m.src.proc i).level = 2 ^ 31 - 1

/-- The counters of the slot are the numbers of dispatches. -/
def Accurate (i : Slot) (tr : List (Move (Kernel ncpu) (Act ncpu))) (s : Kernel ncpu) : Prop :=
  ∀ l : ℤ, 0 ≤ l → l < nlayer → (s.proc i).timeticks l = dispatchesAt i l tr

/-- The promotions are the checks that find the process starved. -/
theorem boosts_of_promote (hstep : step a s = some t)
    (hlevel : (t.proc i).level = (s.proc i).level - 1) (hcreate : ¬Creates ⟨s, a, t⟩ i)
    (hdispatch : ¬Dispatches ⟨s, a, t⟩ i) : Boosts ⟨s, a, t⟩ i := by
  by_cases ha : ∃ c, a = .boost c
  · obtain ⟨c, rfl⟩ := ha
    have hchecked := level_of_checked (checked hstep i)
    by_contra hnot
    rw [if_neg fun h ↦ hnot ⟨⟨c, rfl⟩, h⟩] at hchecked
    omega
  · cases (slotMove hstep (fun c hc ↦ ha ⟨c, hc⟩) i).1 with
    | same hsame => omega
    | dispatch _ hd => exact absurd hd hdispatch
    | create hc => exact absurd hc hcreate

/-- Every value of the ticks is one of an `int`. -/
def InRange (i : Slot) (s : Kernel ncpu) : Prop :=
  ∀ l : ℤ, 0 ≤ l → l < nlayer → (s.proc i).timeticks l < 2 ^ 31

theorem InRange.step (h : InRange i s) (hstep : step a s = some t) : InRange i t := by
  intro l hl hl'
  have hold := h l hl hl'
  cases tickMove hstep i with
  | same _ hticks => rwa [hticks]
  | dispatch hp =>
    rw [hp, Proc.charged]
    simp only
    by_cases hown : l = (s.proc i).level
    · rw [hown, update_self]
      exact toInt32_lt _
    · rwa [update_of_ne hown]
  | create _ _ hticks =>
    rw [hticks l hl hl']
    decide
  | promote _ _ hticks =>
    rw [hticks]
    by_cases hown : l = (s.proc i).level - 1
    · have hslice := mlpqTimeticks_le ((s.proc i).level - 1)
      rw [hown, update_self]
      omega
    · rwa [update_of_ne hown]

theorem InRange.of_reachable (h : Reachable s) (i : Slot) : InRange i s := by
  refine h.invariant (P := InRange i) ?_ fun hu hstep _ ↦ hu.step hstep
  rintro _ rfl l - -
  rw [boot_timeticks]
  decide

/-- One move keeps the counters right, unless it boosts a process with other ticks or a counter
wraps. -/
theorem Accurate.snoc (h : Accurate i tr s) (hs : Reachable s) (hstep : step a s = some t)
    (hboost : Boosts ⟨s, a, t⟩ i → OneSlice i s) (hover : ¬Overflows ⟨s, a, t⟩ i) :
    Accurate i (tr ++ [⟨s, a, t⟩]) t := by
  intro l hl hl'
  have hcount := h l hl hl'
  by_cases hc : Creates ⟨s, a, t⟩ i
  · rw [dispatchesAt_of_creates hc]
    exact timeticks_of_creates hstep hc l hl hl'
  cases tickMove hstep i with
  | same _ hticks hd => rw [dispatchesAt_of_not_dispatches hc hd, hticks, hcount]
  | dispatch hp hd =>
    have hticks : (t.proc i).timeticks = update (s.proc i).timeticks (s.proc i).level
        (toInt32 ((s.proc i).timeticks (s.proc i).level + 1)) := by
      rw [hp]
      rfl
    rw [dispatchesAt_snoc hc, hticks]
    by_cases hown : (s.proc i).level = l
    · have hrange := InRange.of_reachable hs i l hl hl'
      have hne : (s.proc i).timeticks l ≠ 2 ^ 31 - 1 := fun heq ↦ hover ⟨hd, hown ▸ heq⟩
      rw [if_pos ⟨hd, hown⟩, hown, update_self, toInt32_of_range (by omega) (by omega), hcount,
        Nat.cast_add, Nat.cast_one]
    · rw [if_neg fun h ↦ hown h.2, add_zero, ← hcount, update_of_ne (Ne.symm hown)]
  | create hc' => exact absurd hc' hc
  | promote _ hlevel hticks _ hd =>
    rw [dispatchesAt_of_not_dispatches hc hd, hticks]
    by_cases hown : l = (s.proc i).level - 1
    · rw [hown, update_self, ← hboost (boosts_of_promote hstep hlevel hc hd), ← hown]
      exact hcount
    · rw [update_of_ne hown]
      exact hcount

section Example

end Example

end CS537.Mlfq
