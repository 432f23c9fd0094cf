import CS537.Mlfq.Slices

/-!
# What a process is charged for

The scheduler charges a tick when it picks a process up, not when the timer interrupts it. So a
process that always sleeps before the next timer interrupt is moved down all the same, once it has
been dispatched as often as its slice has ticks.
-/

namespace CS537.Mlfq

open Function Transition Wrapping

variable {ncpu : ℕ} {s t : Kernel ncpu} {a : Act ncpu} {i : Slot}
variable {past tr : List (Move (Kernel ncpu) (Act ncpu))}

/-- The timer interrupts the process of the slot. -/
def Interrupts (m : Move (Kernel ncpu) (Act ncpu)) (i : Slot) : Prop :=
  ∃ c, m.act = .timer c ∧ m.src.interruptible c = some i

/-- A run of the process in a slot: the `past` ends with its creation, and the slot is not used
for another process. -/
structure Lifetime (i : Slot) (past tr : List (Move (Kernel ncpu) (Act ncpu)))
    (s t : Kernel ncpu) : Prop where
  history : Run step (boot ncpu) past s
  created : past = [] ∨ ∃ pre m, past = pre ++ [m] ∧ Creates m i
  run : Run step s tr t
  same : ∀ m ∈ tr, ¬Creates m i

namespace Lifetime

theorem reachable (h : Lifetime i past tr s t) : Reachable s :=
  ⟨_, _, rfl, h.history, fun _ _ ↦ trivial⟩

theorem boot_level (i : Slot) : ((boot ncpu).proc i).level = 0 := by
  obtain ⟨_, _, hp⟩ := boot_proc ncpu i
  rw [hp]
  rfl

/-- A process starts at level 0 with no ticks. -/
theorem start (h : Lifetime i past tr s t) :
    (s.proc i).level = 0 ∧ (s.proc i).timeticks 0 = 0 := by
  have hhistory := h.history
  rcases h.created with rfl | ⟨pre, m, rfl, hcreate⟩
  · obtain rfl := hhistory.nil_inv
    exact ⟨boot_level i, boot_timeticks i 0⟩
  · obtain ⟨-, hstep, rfl⟩ := hhistory.snoc_inv
    exact ⟨level_of_creates hstep hcreate, timeticks_of_creates hstep hcreate 0 le_rfl (by decide)⟩

end Lifetime

/-- The level rises at the dispatches that use up a slice above the lowest level, and only there. -/
theorem level_lt_iff (hstep : step a s = some t) (hlevel : 0 ≤ (s.proc i).level) :
    (s.proc i).level < (t.proc i).level ↔ Dispatches ⟨s, a, t⟩ i ∧
      toInt32 ((s.proc i).timeticks (s.proc i).level + 1) % mlpqTimeticks (s.proc i).level = 0 ∧
      (s.proc i).level ≠ nlayer - 1 := by
  constructor
  · intro hlt
    have hdemote : Demotes ⟨s, a, t⟩ i := by
      change (t.proc i).level = (s.proc i).level + 1
      cases tickMove hstep i with
      | same hl => omega
      | dispatch hp =>
        rw [hp, Proc.charged] at hlt ⊢
        simp only at hlt ⊢
        split_ifs at hlt ⊢ <;> omega
      | create _ hl => omega
      | promote _ hl => omega
    obtain ⟨hd, -, hzero, hne⟩ := demotes_inv hstep hdemote hlevel
    exact ⟨hd, hzero, hne⟩
  · rintro ⟨hd, hzero, hne⟩
    cases tickMove hstep i with
    | dispatch hp =>
      have hl : (t.proc i).level = (s.proc i).level + 1 := by
        rw [hp, Proc.charged]
        exact if_pos ⟨hzero, hne⟩
      omega
    | same _ _ hd' => exact absurd hd hd'
    | create _ _ _ hd' => exact absurd hd hd'
    | promote _ _ _ _ hd' => exact absurd hd hd'

/-- A process with fewer dispatches than a slice of level 0 has ticks is still there. -/
theorem Lifetime.level_zero (h : Lifetime i past tr s t)
    (hlt : dispatches i tr < mlpqTimeticks 0) :
    (t.proc i).level = 0 ∧ ∀ m ∈ tr, (m.dst.proc i).level = 0 := by
  obtain ⟨hlevel, hticks⟩ := h.start
  have hs := h.reachable
  have hrun := h.run
  have hsame := h.same
  clear h
  induction hrun with
  | nil => exact ⟨hlevel, by simp⟩
  | @snoc u v tr a hrun hstep ih =>
    rw [dispatches_snoc] at hlt
    have hsame' : ∀ m ∈ tr, ¬Creates m i := fun m hm ↦ hsame m (List.mem_append_left _ hm)
    obtain ⟨hu, htr⟩ := ih (by omega) hsame'
    have hstays := stays_of_level hrun hsame' hlevel htr
    obtain ⟨hcount, -⟩ := ticks_of_stays hs hrun hstays (by rw [hlevel]; decide)
    rw [hlevel, hticks, zero_add] at hcount
    have hv : (v.proc i).level = 0 := by
      cases tickMove hstep i with
      | same hl => rw [hl, hu]
      | dispatch hp hd =>
        rw [if_pos hd] at hlt
        rw [hp, Proc.charged]
        -- the counter is the number of dispatches so far, too small for a multiple of the slice
        refine (if_neg fun hcond ↦ ?_).trans hu
        have hslice := mlpqTimeticks_le 0
        rw [hu, hcount, toInt32_of_range (by omega) (by omega),
          Int.emod_eq_of_lt (by omega) (by omega)] at hcond
        omega
      | create _ hl => exact hl
      | promote hne => exact absurd hu hne
    refine ⟨hv, fun m hm ↦ ?_⟩
    rcases List.mem_append.mp hm with hm | hm
    · exact htr m hm
    · rw [List.mem_singleton.mp hm]
      exact hv

/-- **The charging rule.** Over the lifetime of a process, with or without timer interrupts, its
level rises exactly at the dispatches that bring its counter to a multiple of the slice, above the
lowest level, and it stays at level 0 exactly as long as it has been dispatched less often than a
slice of level 0 has ticks. -/
theorem charged_on_dispatch (ncpu : ℕ) (past tr : List (Move (Kernel ncpu) (Act ncpu)))
    (s t : Kernel ncpu) (i : Slot) (h : Lifetime i past tr s t) :
    (∀ m ∈ tr, ((m.src.proc i).level < (m.dst.proc i).level ↔ Dispatches m i ∧
      toInt32 ((m.src.proc i).timeticks (m.src.proc i).level + 1)
        % mlpqTimeticks (m.src.proc i).level = 0 ∧
      (m.src.proc i).level ≠ nlayer - 1)) ∧
    ((∀ m ∈ tr, (m.dst.proc i).level = 0) ↔ dispatches i tr < mlpqTimeticks 0) := by
  obtain ⟨hlevel, hticks⟩ := h.start
  refine ⟨fun m hm ↦ ?_, fun htr ↦ ?_, fun hlt ↦ (h.level_zero hlt).2⟩
  · obtain ⟨pre, post, rfl⟩ := List.append_of_mem hm
    obtain ⟨hpre, hstep, -⟩ := h.run.split_at
    have hsrc := Shape.of_reachable (h.reachable.run hpre fun _ _ ↦ trivial)
    exact level_lt_iff hstep (hsrc.level_mem i).1
  · have hstays := stays_of_level h.run h.same hlevel htr
    obtain ⟨-, hlt⟩ := ticks_of_stays h.reachable h.run hstays (by rw [hlevel]; decide)
    rw [hlevel, hticks, Int.zero_emod, zero_add] at hlt
    exact Int.ofNat_lt.mp hlt

section Example

/-- The first process sleeps, its child wakes it and sleeps, and it wakes the child. -/
def pingPong : List (Act 1) :=
  [.sleep 0 (.other 0), .scan 0, .scan 0, .resume 0, .wakeup 0 (.other 0), .sleep 0 (.other 1)] ++
    List.replicate 66 (.scan 0) ++ [.resume 0, .wakeup 0 (.other 1)]

/-- The first process and its child run by turns and always sleep before the timer interrupt. -/
def interactive : List (Act 1) :=
  [.acquire 0, .scan 0, .resume 0, .allocproc 0, .fork 0] ++ (List.replicate 4 pingPong).flatten

theorem interactive_replay :
    ((replayIn step (fun s ↦ (s.proc initproc).state ≠ .embryo) interactive (boot 1)).map
      fun t ↦ (t.proc initproc).level) = some 1 := by
  decide +kernel

theorem timer_notMem_interactive : Act.timer 0 ∉ interactive := by
  decide +kernel

theorem exists_interactive : ∃ (tr : List (Move (Kernel 1) (Act 1))) (t : Kernel 1),
    Lifetime initproc [] tr (boot 1) t ∧ (∀ m ∈ tr, ¬Interrupts m initproc) ∧
      (t.proc initproc).level = 1 := by
  obtain ⟨t, ht, hlevel⟩ := Option.map_eq_some_iff.mp interactive_replay
  obtain ⟨tr, hrun, hact, hok⟩ := exists_run_of_replayIn ht
  refine ⟨tr, t, ⟨.nil _, .inl rfl, hrun, fun m hm hc ↦ ?_⟩, fun m hm hi ↦ ?_, hlevel⟩
  · have hstate := hok m hm
    rw [hc.2] at hstate
    simp at hstate
  · obtain ⟨c, hc, -⟩ := hi
    have hmem : m.act ∈ interactive := hact ▸ List.mem_map_of_mem hm
    rw [hc, Subsingleton.elim c 0] at hmem
    exact timer_notMem_interactive hmem

theorem charged_on_dispatch_interactive : ∃ tr : List (Move (Kernel 1) (Act 1)),
    ((∀ m ∈ tr, (m.dst.proc initproc).level = 0) ↔ dispatches initproc tr < mlpqTimeticks 0) := by
  obtain ⟨tr, t, hlife, -⟩ := exists_interactive
  exact ⟨tr, (charged_on_dispatch 1 [] tr (boot 1) t initproc hlife).2⟩

/-- A process that no timer interrupt ever finds running is moved down. -/
theorem not_charged_on_timer : ¬∀ (past tr : List (Move (Kernel 1) (Act 1))) (s t : Kernel 1)
    (i : Slot), Lifetime i past tr s t → (∀ m ∈ tr, ¬Interrupts m i) → (t.proc i).level = 0 := by
  intro hall
  obtain ⟨tr, t, hlife, htimer, hlevel⟩ := exists_interactive
  have hzero := hall [] tr (boot 1) t initproc hlife htimer
  rw [hlevel] at hzero
  exact one_ne_zero hzero

end Example

end CS537.Mlfq
