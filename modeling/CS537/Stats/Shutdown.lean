import CS537.Lib.Fair
import CS537.Stats.Slots

/-!
# SIGINT

The handler waits for the semaphore that the interrupted code may hold, and uses a pointer that
`stats_init` sets only after the critical section in which it has marked the slot. A run in which
every SIGINT comes later, and outside of the critical sections, is one in which every handler frees
the slot, makes the semaphore available and exits; in any other run some handler does not.
-/

namespace CS537.Stats

open Function Transition

variable {C : Type} [DecidableEq C] {s t : State C} {a : Act C} {c : C} {b : Buffno}
  {state : ℕ → State C} {act : ℕ → Act C} {n : ℕ}

/-- `validbitaddr` is set, and the client does not hold the semaphore. -/
def Clean (c : C) (s : State C) : Prop :=
  (s.client c).validbitaddr ≠ none ∧ (s.client c).pc.InSection = false

/-- The run of the handler that SIGINT starts at `n`: it marks free what the client has claimed,
leaves the semaphore available, and exits. -/
def EndsWell (state : ℕ → State C) (n : ℕ) (c : C) : Prop :=
  ∃ m k, n < m ∧ m ≤ k ∧ 0 < (state m).mutex ∧
    (∀ b, ((state n).client c).claimed = some b → (state m).valid b = false) ∧
    ∃ status, ((state k).client c).pc = .exited status

/-! ## A SIGINT that comes too early -/

/-- The semaphore is held by nobody who could release it. -/
def Lost (s : State C) : Prop := s.mutex = 0 ∧ ∀ c, (s.client c).pc.InSection = false

theorem Lost.put {x : Client} (h : Lost s) (hx : x.pc.InSection = false) : Lost (s.put c x) :=
  ⟨h.1, forall_put (P := fun _ y ↦ y.pc.InSection = false) hx fun c' _ ↦ h.2 c'⟩

theorem Lost.step (h : Lost s) (hstep : step a s = some t) : Lost t := by
  obtain ⟨hzero, hout⟩ := id h
  cases trans_of_step hstep with
  | other => exact h
  | enter hpc => exact h.put (not_inSection_scan 0)
  | wait hpc hpos | loop hpc hpos | unlinkWait hpc hpos =>
    rw [hzero] at hpos
    cases hpos
  | @used c b hpc | @free c b hpc | @set c b hpc | @found c b hpc | @next c b hpc =>
    have hc := hout c
    rw [hpc] at hc
    cases hc
  | @update c hpc | @clear c b hpc | @unlinkPost c hpc =>
    have hc := hout c
    rw [hpc] at hc
    cases hc
  | _ => exact h.put rfl

/-- The handler is about to read through NULL, or has. -/
def Null (c : C) (s : State C) : Prop :=
  (s.client c).validbitaddr = none ∧ ((s.client c).pc = .unlink ∨ (s.client c).pc = .crashed)

theorem Null.step (h : Null c s) (hstep : step a s = some t) : Null c t := by
  obtain ⟨haddr, hpc⟩ := id h
  by_cases hrun : a = .run c
  · subst hrun
    rcases hpc with hpc | hpc
    · change run c s = some t at hstep
      simp only [run, hpc, haddr, Option.some.injEq] at hstep
      subst hstep
      exact ⟨(congrArg Client.validbitaddr (put_client_self ..)).trans haddr,
        .inr (congrArg Client.pc (put_client_self ..))⟩
    · change run c s = some t at hstep
      simp only [run, hpc, reduceCtorEq] at hstep
  · rw [Null, client_of_step hstep hrun]
    · exact h
    · rintro rfl
      cases trans_of_step hstep with
      | sigint hint => rcases hpc with hpc | hpc <;> rw [hpc] at hint <;> cases hint

/-! ## The semaphore comes back -/

/-- The moves that a client has left in its critical section. -/
def Pc.left : Pc → ℕ
  | .test _ => 3
  | .set _ | .clear => 2
  | .post _ _ | .update | .unlinkPost => 1
  | _ => 0

structure Held (s : State C) : Prop extends SlotsOk s where
  held : s.mutex = 0 → ∃ c, (s.client c).pc.InSection = true

theorem section_of_step (hs : SlotsOk s) (hstep : step a s = some t)
    (hclean : ∀ c, a = .sigint c → Clean c s) (hin : (s.client c).pc.InSection = true) :
    (a ≠ .run c ∧ t.client c = s.client c ∧ t.valid = s.valid) ∨
    (a = .run c ∧ (0 < t.mutex ∨
      (t.client c).pc.InSection = true ∧ (t.client c).pc.left < (s.client c).pc.left)) := by
  by_cases hrun : a = .run c
  · subst hrun
    refine .inr ⟨rfl, ?_⟩
    cases trans_of_step hstep with
    | used hpc | free hpc | set hpc | clear hpc =>
      exact .inr (by simp [State.goto, put_client_self, hpc, Pc.InSection, Pc.left])
    | found hpc | next hpc | update hpc | unlinkPost hpc => exact .inl (Nat.succ_pos _)
    | null hpc haddr =>
      rcases hpc with hpc | hpc
      · rw [hpc] at hin
        cases hin
      · obtain ⟨b, hb, -⟩ := hs.okAt hpc
        rw [haddr] at hb
        cases hb
    | enter hpc | wait hpc | publish hpc | loop hpc | returned hpc | unlink hpc | notLinked hpc
    | unlinkWait hpc | close hpc =>
      rw [hpc] at hin
      cases hin
  · have hsigint : a ≠ .sigint c := by
      rintro rfl
      rw [(hclean c rfl).2] at hin
      cases hin
    refine .inl ⟨hrun, client_of_step hstep hrun hsigint, ?_⟩
    cases trans_of_step hstep with
    | @set c' b hpc | @clear c' b hpc =>
      refine absurd (hs.one c' c ?_ hin) fun heq ↦ hrun (heq ▸ rfl)
      rw [hpc]
      rfl
    | _ => rfl

theorem mutex_of_step (hstep : step a s = some t) :
    t.mutex = s.mutex ∨ 0 < t.mutex ∨ ∃ c, (t.client c).pc.InSection = true := by
  cases trans_of_step hstep with
  | @wait c | @loop c | @unlinkWait c =>
    exact .inr (.inr ⟨c, congrArg (Pc.InSection ∘ Client.pc) (put_client_self ..)⟩)
  | found | next | update | unlinkPost => exact .inr (.inl (Nat.succ_pos _))
  | _ => exact .inl rfl

theorem Held.step (hs : Held s) (hstep : step a s = some t)
    (hclean : ∀ c, a = .sigint c → Clean c s) : Held t := by
  refine ⟨hs.toSlotsOk.step hstep, fun hzero ↦ ?_⟩
  rcases mutex_of_step hstep with hsame | hpos | hin
  · obtain ⟨c, hin⟩ := hs.held (hsame ▸ hzero)
    refine ⟨c, ?_⟩
    rcases section_of_step hs.toSlotsOk hstep hclean hin with ⟨-, hc, -⟩ | ⟨-, hpos | ⟨hin', -⟩⟩
    · rwa [hc]
    · omega
    · exact hin'
  · omega
  · exact hin

theorem enabled_of_live (hopen : 0 < s.mutex ∨ (s.client c).pc.InSection = true)
    (hexited : ∀ status, (s.client c).pc ≠ .exited status) (hcrashed : (s.client c).pc ≠ .crashed) :
    Enabled step (.run c) s := by
  change ∃ t, run c s = some t
  rw [run]
  split
  case h_2 hpc | h_7 hpc | h_11 hpc =>
    rcases hopen with hpos | hin
    · exact ⟨_, if_pos hpos⟩
    · rw [hpc] at hin
      cases hin
  case h_10 | h_12 =>
    split
    · exact ⟨_, rfl⟩
    · exact ⟨_, rfl⟩
  case h_15 status hpc => exact absurd hpc (hexited status)
  case h_16 hpc => exact absurd hpc hcrashed
  all_goals exact ⟨_, rfl⟩

theorem enabled_of_section (hin : (s.client c).pc.InSection = true) : Enabled step (.run c) s := by
  refine enabled_of_live (.inr hin) (fun status h ↦ ?_) fun h ↦ ?_
  · rw [h] at hin
    cases hin
  · rw [h] at hin
    cases hin

/-! ## The moves of the handler -/

omit [DecidableEq C] in
theorem linked_of_clean (hs : SlotsOk s) (hclean : Clean c s)
    (hint : (s.client c).pc.Interruptible = true) : (s.client c).Linked :=
  ((hs.ok c).interrupt hint).resolve_left hclean.1

theorem goto_of_sigint (hstep : step (.sigint c) s = some t) :
    (s.client c).pc.Interruptible = true ∧ t = s.goto c .unlink := by
  cases trans_of_step hstep with
  | sigint hint => exact ⟨hint, rfl⟩

theorem client_of_sigint (hstep : step (.sigint c) s = some t) :
    t.client c = ⟨.unlink, (s.client c).validbitaddr, (s.client c).claimed⟩ := by
  rw [(goto_of_sigint hstep).2]
  exact put_client_self ..

variable (hrun : run c s = some t)

include hrun

theorem run_unlink (hc : s.client c = ⟨.unlink, some b, some b⟩) (hb : s.valid b = true) :
    t.client c = ⟨.unlinkWait, some b, some b⟩ := by
  simp only [run, hc, hb, if_true, Option.some.injEq] at hrun
  rw [← hrun, State.goto, put_client_self, hc]

theorem run_unlinkWait (hc : s.client c = ⟨.unlinkWait, some b, some b⟩) :
    t.client c = ⟨.clear, some b, some b⟩ := by
  simp only [run, hc, Option.ite_none_right_eq_some, Option.some.injEq] at hrun
  rw [← hrun.2, State.goto, put_client_self, State.semWait, hc]

theorem run_clear (hc : s.client c = ⟨.clear, some b, some b⟩) :
    t.client c = ⟨.unlinkPost, some b, none⟩ ∧ t.valid b = false := by
  simp only [run, hc, Option.some.injEq] at hrun
  rw [← hrun, put_client_self]
  exact ⟨rfl, update_self ..⟩

theorem run_unlinkPost (hc : s.client c = ⟨.unlinkPost, some b, none⟩) :
    t.client c = ⟨.close, some b, none⟩ ∧ t.valid = s.valid ∧ 0 < t.mutex := by
  simp only [run, hc, Option.some.injEq] at hrun
  rw [← hrun, State.goto, put_client_self, State.semPost, hc]
  exact ⟨rfl, rfl, Nat.succ_pos _⟩

theorem run_close (hc : s.client c = ⟨.close, some b, none⟩) :
    (t.client c).pc = .exited 0 := by
  simp only [run, hc, Option.some.injEq] at hrun
  rw [← hrun, State.goto, put_client_self]

omit hrun

/-! ## Executions without an early SIGINT -/

section

variable (hexec : Execution step (start C) state act)
  (hfair : ∀ c, Fair step state act (.run c))
  (hclean : ∀ n c, act n = .sigint c → Clean c (state n))

include hexec hclean

theorem held (n : ℕ) : Held (state n) := by
  refine hexec.invariant (G := fun m ↦ ∀ c, m.act = .sigint c → Clean c m.src) ?_ hclean ?_ n
  · exact fun hs hstep hG ↦ hs.step hstep hG
  · exact ⟨.start, nofun⟩

include hfair

/-- A client leaves its critical section. -/
theorem exists_mutex_pos_of_section (hin : ((state n).client c).pc.InSection = true) :
    ∃ m, n ≤ m ∧ 0 < (state m).mutex := by
  induction hleft : ((state n).client c).pc.left using Nat.strong_induction_on generalizing n with
  | _ left ih =>
    have hsection : ∀ m, (state m).client c = (state n).client c → _ := fun m hm ↦
      section_of_step (held hexec hclean m).toSlotsOk (hexec.move m) (hclean m) (hm ▸ hin)
    obtain ⟨m, hnm, hm, hact⟩ := (hfair c).exists_taken (n := n)
      (P := fun s ↦ s.client c = (state n).client c) rfl
      (fun m _ hm hact ↦ by
        rcases hsection m hm with ⟨-, hc, -⟩ | ⟨hrun, -⟩
        · exact hc.trans hm
        · exact absurd hrun hact)
      (fun hall m hm ↦ ⟨m, Nat.le_refl m, enabled_of_section (by rwa [hall m hm])⟩)
    rcases hsection m hm with ⟨hrun, -⟩ | ⟨-, hpos | ⟨hin', hlt⟩⟩
    · exact absurd hact hrun
    · exact ⟨m + 1, Nat.le_succ_of_le hnm, hpos⟩
    · rw [hm, hleft] at hlt
      obtain ⟨k, hk, hpos⟩ := ih _ hlt hin' rfl
      exact ⟨k, by omega, hpos⟩

/-- The semaphore is available again and again. -/
theorem exists_mutex_pos (n : ℕ) : ∃ m, n ≤ m ∧ 0 < (state m).mutex := by
  rcases Nat.eq_zero_or_pos (state n).mutex with hzero | hpos
  · obtain ⟨c, hin⟩ := (held hexec hclean n).held hzero
    exact exists_mutex_pos_of_section hexec hfair hclean hin
  · exact ⟨n, Nat.le_refl n, hpos⟩

/-- A client in its handler gets to make its next move. -/
theorem exists_run_keeping {x : Client} (hn : (state n).client c = x)
    (hx : x.pc.Interruptible = false) (hexited : ∀ status, x.pc ≠ .exited status)
    (hcrashed : x.pc ≠ .crashed) {Q : State C → Prop} (hQ : Q (state n))
    (hkeep : ∀ {s a t}, SlotsOk s → s.client c = x → Q s → step a s = some t → a ≠ .run c →
      (∀ c, a = .sigint c → Clean c s) → Q t) :
    ∃ m, n ≤ m ∧ (state m).client c = x ∧ Q (state m) ∧
      run c (state m) = some (state (m + 1)) := by
  have hstay : ∀ m, n ≤ m → (state m).client c = x ∧ Q (state m) → act m ≠ .run c →
      (state (m + 1)).client c = x ∧ Q (state (m + 1)) := by
    rintro m - ⟨hm, hQm⟩ hact
    have hmove := hexec.move m
    refine ⟨?_, hkeep (held hexec hclean m).toSlotsOk hm hQm hmove hact (hclean m)⟩
    rw [client_of_step hmove hact, hm]
    intro hsigint
    rw [hsigint] at hmove
    have hint := (goto_of_sigint hmove).1
    rw [hm, hx] at hint
    cases hint
  have hopen : (∀ m, n ≤ m → (state m).client c = x ∧ Q (state m)) →
      ∀ m, n ≤ m → ∃ k, m ≤ k ∧ Enabled step (.run c) (state k) := by
    intro hall m hm
    obtain ⟨k, hk, hpos⟩ := exists_mutex_pos hexec hfair hclean m
    have hc := (hall k (Nat.le_trans hm hk)).1
    exact ⟨k, hk, enabled_of_live (.inl hpos) (by rwa [hc]) (by rwa [hc])⟩
  obtain ⟨m, hnm, ⟨hm, hQm⟩, hact⟩ := (hfair c).exists_taken (n := n)
    (P := fun s ↦ s.client c = x ∧ Q s) ⟨hn, hQ⟩ hstay hopen
  have hmove := hexec.move m
  rw [hact] at hmove
  exact ⟨m, hnm, hm, hQm, hmove⟩

theorem exists_run {x : Client} (hn : (state n).client c = x)
    (hx : x.pc.Interruptible = false) (hexited : ∀ status, x.pc ≠ .exited status)
    (hcrashed : x.pc ≠ .crashed) :
    ∃ m, n ≤ m ∧ (state m).client c = x ∧ run c (state m) = some (state (m + 1)) := by
  obtain ⟨m, hm, hc, -, hrun⟩ := exists_run_keeping hexec hfair hclean hn hx hexited hcrashed
    (Q := fun _ ↦ True) trivial fun _ _ _ _ _ _ ↦ trivial
  exact ⟨m, hm, hc, hrun⟩

/-- **A clean SIGINT ends well.** -/
theorem endsWell (hact : act n = .sigint c) : EndsWell state n c := by
  have hmove := hexec.move n
  rw [hact] at hmove
  have h0 := client_of_sigint hmove
  obtain ⟨b, haddr, hclaim⟩ := linked_of_clean (held hexec hclean n).toSlotsOk (hclean n c hact)
    (goto_of_sigint hmove).1
  rw [haddr, hclaim] at h0
  have hgo := fun {n x} ↦ exists_run hexec hfair hclean (n := n) (c := c) (x := x)
  obtain ⟨m1, hm1, hc1, hrun1⟩ := hgo h0 rfl nofun nofun
  have hmarked := (held hexec hclean m1).marked c b (by rw [hc1])
  obtain ⟨m2, hm2, hc2, hrun2⟩ := hgo (run_unlink hrun1 hc1 hmarked) rfl nofun nofun
  obtain ⟨m3, hm3, hc3, hrun3⟩ := hgo (run_unlinkWait hrun2 hc2) rfl nofun nofun
  obtain ⟨h3, hb3⟩ := run_clear hrun3 hc3
  -- until the client posts, nobody else marks a slot
  obtain ⟨m4, hm4, hc4, hb4, hrun4⟩ := exists_run_keeping hexec hfair hclean h3 rfl nofun nofun
    (Q := fun s ↦ s.valid b = false) hb3 fun hs hc hQ hstep hact hclean ↦ by
      have hin := section_of_step (c := c) hs hstep hclean (by rw [hc]; rfl)
      rcases hin with ⟨-, -, hvalid⟩ | ⟨hrun, -⟩
      · rw [hvalid, hQ]
      · exact absurd hrun hact
  obtain ⟨h4, hvalid, hpos⟩ := run_unlinkPost hrun4 hc4
  obtain ⟨m5, hm5, hc5, hrun5⟩ := hgo h4 rfl nofun nofun
  refine ⟨m4 + 1, m5 + 1, by omega, by omega, hpos, fun b' hb' ↦ ?_, 0, run_close hrun5 hc5⟩
  rw [hclaim] at hb'
  rw [← Option.some.inj hb', hvalid, hb4]

end

/-! ## Runs -/

theorem not_endsWell (hexec : Execution step (start C) state act) (hact : act n = .sigint c)
    (hbad : ¬Clean c (state n)) : ¬EndsWell state n c := by
  rintro ⟨m, k, hm, hk, hpos, -, status, hexit⟩
  have hmove := hexec.move n
  rw [hact] at hmove
  by_cases haddr : ((state n).client c).validbitaddr = none
  · have hnull : Null c (state (n + 1)) := by
      rw [Null, client_of_sigint hmove]
      exact ⟨haddr, .inl rfl⟩
    obtain ⟨-, hpc | hpc⟩ := hexec.stable (P := Null c) Null.step hnull (m := k) (by omega)
    · rw [hpc] at hexit
      cases hexit
    · rw [hpc] at hexit
      cases hexit
  · have hin : ((state n).client c).pc.InSection = true := by
      by_contra hout
      exact hbad ⟨haddr, Bool.eq_false_iff.mpr hout⟩
    have hs : SlotsOk (state n) := hexec.invariant (G := fun _ ↦ True)
      (fun hs hstep _ ↦ hs.step hstep) (fun _ ↦ trivial) .start n
    -- the client held the semaphore alone, and now it waits for it
    have hlost : Lost (state (n + 1)) := by
      rw [(goto_of_sigint hmove).2]
      exact ⟨hs.mutex_eq_zero hin, forall_put (P := fun _ y ↦ y.pc.InSection = false) rfl
        fun c' hne ↦ hs.others hin hne⟩
    have hzero := (hexec.stable (P := Lost) Lost.step hlost hm).1
    omega

/-- **Shutdown.** In a fair execution every handler ends well if and only if every SIGINT comes when
`validbitaddr` is set and the client does not hold the semaphore. -/
theorem shutdown_iff (hexec : Execution step (start C) state act)
    (hfair : ∀ c, Fair step state act (.run c)) :
    (∀ n c, act n = .sigint c → EndsWell state n c) ↔
      ∀ n c, act n = .sigint c → Clean c (state n) := by
  constructor
  · intro hends n c hact
    by_contra hbad
    exact not_endsWell hexec hact hbad (hends n c hact)
  · exact fun hclean n c hact ↦ endsWell hexec hfair hclean hact

/-- Moves after which no client can move, and then nothing. -/
theorem exists_fair (as : List (Act C)) {t : State C} (h : replay step as (start C) = some t)
    (hstuck : ∀ c, run c t = none) :
    ∃ state act, Execution step (start C) state act ∧
      (∀ c, Fair step state act (.run c)) ∧ (∀ n, act n = as.getD n .other) ∧
      ∀ n, replay step (as.take n) (start C) = some (state n) := by
  obtain ⟨state, act, hexec, hact, hstate⟩ := exists_execution_of_replay h (a := .other) rfl
  refine ⟨state, act, hexec, fun c ↦ .of_disabled (n := as.length) fun m hm ↦ ?_, hact, hstate⟩
  have ht := hstate m
  rw [List.take_of_length_le hm, h] at ht
  rintro ⟨u, hu⟩
  rw [← Option.some.inj ht] at hu
  exact absurd (hu.symm.trans (hstuck c)) (Option.some_ne_none u)

/-- Two clients attach. The first is interrupted in its loop while the second holds the semaphore,
waits in its handler for it, and leaves; then the second is interrupted. -/
def twoInterrupts : List (Act (Fin 2)) :=
  List.replicate 6 (.run 0) ++ List.replicate 10 (.run 1) ++ [.sigint 0, .run 0, .run 1] ++
    List.replicate 4 (.run 0) ++ .sigint 1 :: List.replicate 5 (.run 1)

theorem sigint_twoInterrupts {n : ℕ} {c : Fin 2} (h : twoInterrupts.getD n .other = .sigint c) :
    n = 16 ∧ c = 0 ∨ n = 23 ∧ c = 1 := by
  have hall : ∀ i < twoInterrupts.length, ∀ c, twoInterrupts.getD i .other = .sigint c →
      i = 16 ∧ c = 0 ∨ i = 23 ∧ c = 1 := by decide
  refine hall n (Nat.lt_of_not_le fun hle ↦ ?_) c h
  rw [List.getD_eq_getElem?_getD, List.getElem?_eq_none hle] at h
  cases h

/-- The handler of the first client waits for the semaphore, and both end well. -/
theorem shutdown_two : ∃ state act, Execution step (start (Fin 2)) state act ∧
    (∀ c, Fair step state act (.run c)) ∧ act 16 = .sigint 0 ∧ act 23 = .sigint 1 ∧
    ¬Enabled step (.run 0) (state 18) ∧ EndsWell state 16 0 ∧ EndsWell state 23 1 := by
  obtain ⟨state, act, hexec, hfair, hact, hstate⟩ := exists_fair twoInterrupts rfl (by decide)
  have hends : ∀ n c, act n = .sigint c → EndsWell state n c := by
    refine (shutdown_iff hexec hfair).mpr fun n c hn ↦ ?_
    rw [hact] at hn
    rcases sigint_twoInterrupts hn with ⟨rfl, rfl⟩ | ⟨rfl, rfl⟩
    · rw [Clean, ← Option.some.inj (hstate 16)]
      exact ⟨by decide, by decide⟩
    · rw [Clean, ← Option.some.inj (hstate 23)]
      exact ⟨by decide, by decide⟩
  refine ⟨state, act, hexec, hfair, hact 16, hact 23, ?_, hends 16 0 (hact 16),
    hends 23 1 (hact 23)⟩
  rw [← Option.some.inj (hstate 18)]
  rintro ⟨u, hu⟩
  cases hu

/-- SIGINT in the critical section of the loop. -/
theorem not_shutdown : ¬∀ (C : Type) [DecidableEq C] (state : ℕ → State C) (act : ℕ → Act C),
    Execution step (start C) state act → (∀ c, Fair step state act (.run c)) →
      ∀ n c, act n = .sigint c → EndsWell state n c := by
  intro h
  obtain ⟨state, act, hexec, hfair, hact, hstate⟩ := exists_fair
    (List.replicate 7 (.run ()) ++ [.sigint (), .run ()]) rfl fun _ ↦ rfl
  refine not_endsWell hexec (hact 7) (fun hclean ↦ ?_) (h Unit state act hexec hfair 7 () (hact 7))
  have h7 := Option.some.inj (hstate 7)
  have hout := hclean.2
  rw [← h7] at hout
  cases hout

end CS537.Stats
