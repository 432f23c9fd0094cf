import CS537.Stats.Client

/-!
# The search for a free slot

`stats_init` releases the semaphore between two slots, so it has looked at each slot at its own
instant. When it returns NULL it has found each of them marked, but all were marked together only if
no slot was freed behind the search.
-/

namespace CS537.Stats

open Function Transition

variable {C : Type} [DecidableEq C] {s t : State C} {a : Act C} {c : C} {b : Buffno} {n : ℕ}
  {tr tr' : List (Move (State C) (Act C))}

/-! ## What happens during a call -/

/-- Inside of `stats_init`. -/
def Pc.InCall : Pc → Bool
  | .wait _ | .test _ | .set _ | .post _ _ | .publish _ => true
  | _ => false

/-- How many slots the search has found in use. -/
def Pc.passed : Pc → Option ℕ
  | .wait b | .test b => some b
  | .post b false => some (b + 1)
  | .returned => some numberOfBuffers
  | _ => none

/-- The call of `c` examines a slot. -/
def Examines (c : C) (b : Buffno) (m : Move (State C) (Act C)) : Prop :=
  m.act = .run c ∧ (m.src.client c).pc = .test b

/-- Some client's `stats_unlink` marks a slot free. -/
def Unlinks (b : Buffno) (m : Move (State C) (Act C)) : Prop :=
  ∃ c, m.act = .run c ∧ (m.src.client c).pc = .clear ∧ (m.src.client c).validbitaddr = some b

def AllMarked (s : State C) : Prop := ∀ b, s.valid b = true

/-- At some instant of the call of `c` in the run. -/
def DuringCall (c : C) (tr : List (Move (State C) (Act C))) (P : State C → Prop) : Prop :=
  ∃ m ∈ tr, (m.src.client c).pc.InCall = true ∧ (P m.src ∨ P m.dst)

/-- During the call of `c` a slot is marked free that the call has already examined. -/
def FreedBehind (c : C) (b : Buffno) (tr : List (Move (State C) (Act C))) : Prop :=
  ∃ tr₁ tr₂, tr = tr₁ ++ tr₂ ∧ (∃ m ∈ tr₁, Examines c b m) ∧
    ∃ m ∈ tr₂, (m.src.client c).pc.InCall = true ∧ Unlinks b m

omit [DecidableEq C] in
theorem DuringCall.append {P : State C → Prop} (h : DuringCall c tr P) :
    DuringCall c (tr ++ tr') P := by
  obtain ⟨m, hm, h⟩ := h
  exact ⟨m, List.mem_append_left _ hm, h⟩

omit [DecidableEq C] in
theorem FreedBehind.append (h : FreedBehind c b tr) : FreedBehind c b (tr ++ tr') := by
  obtain ⟨tr₁, tr₂, rfl, hseen, m, hm, h⟩ := h
  exact ⟨tr₁, tr₂ ++ tr', List.append_assoc .., hseen, m, List.mem_append_left _ hm, h⟩

/-! ## One move -/

theorem passed_scan (h : n ≤ numberOfBuffers) : (scan n).passed = some n := by
  rw [scan]
  split
  · rfl
  next hn =>
    obtain rfl : n = numberOfBuffers := by omega
    rfl

/-- A marked slot remains marked until it is unlinked. -/
theorem valid_of_step (hstep : step a s = some t) (hb : s.valid b = true) :
    t.valid b = true ∨ Unlinks b ⟨s, a, t⟩ := by
  cases trans_of_step hstep with
  | @set c b' hpc =>
    refine .inl ?_
    change Function.update s.valid b' true b = true
    by_cases heq : b = b'
    · rw [heq, update_self]
    · rwa [update_of_ne heq]
  | @clear c b' hpc haddr =>
    by_cases heq : b = b'
    · exact .inr ⟨c, rfl, hpc, heq ▸ haddr⟩
    · refine .inl ?_
      change Function.update s.valid b' false b = true
      rwa [update_of_ne heq]
  | _ => exact .inl hb

/-- The progress of the search: it goes on to the next slot when it has found one in use. -/
theorem passed_of_step (hstep : step a s = some t) (hn : (t.client c).pc.passed = some n) :
    n = 0 ∨
    ((s.client c).pc.passed = some n ∧
      ((t.client c).pc.InCall = true → (s.client c).pc.InCall = true)) ∨
    ∃ b : Buffno, n = b + 1 ∧ Examines c b ⟨s, a, t⟩ ∧ s.valid b = true ∧ t.valid = s.valid := by
  by_cases hsigint : a = .sigint c
  · subst hsigint
    cases trans_of_step hstep
    rw [State.goto, put_client_self] at hn
    cases hn
  by_cases hrun : a = .run c
  · subst hrun
    cases trans_of_step hstep with
    | enter hpc =>
      rw [State.goto, put_client_self, passed_scan (Nat.zero_le _)] at hn
      exact .inl (Option.some.inj hn).symm
    | wait hpc hmutex =>
      rw [State.goto, put_client_self] at hn
      exact .inr (.inl ⟨by rw [hpc]; exact hn, fun _ ↦ by rw [hpc]; rfl⟩)
    | @used _ b hpc hb =>
      rw [State.goto, put_client_self] at hn
      exact .inr (.inr ⟨b, (Option.some.inj hn).symm, ⟨rfl, hpc⟩, hb, rfl⟩)
    | @next _ b hpc =>
      rw [State.goto, put_client_self, passed_scan b.isLt] at hn
      exact .inr (.inl ⟨by rw [hpc]; exact hn, fun _ ↦ by rw [hpc]; rfl⟩)
    | _ =>
      -- the other moves leave the search
      simp only [State.goto, put_client_self] at hn
      cases hn
  · rw [client_of_step hstep hrun hsigint] at hn ⊢
    exact .inr (.inl ⟨hn, id⟩)

/-! ## The search -/

/-- What a call knows that has found `n` slots in use. -/
structure Searched (c : C) (tr : List (Move (State C) (Act C))) (s : State C) (n : ℕ) : Prop where
  examined : ∀ b : Buffno, b < n → ∃ m ∈ tr, Examines c b m ∧ m.src.valid b = true
  marked : (s.client c).pc.InCall = true →
    ∀ b : Buffno, b < n → s.valid b = true ∨ FreedBehind c b tr
  full : n = numberOfBuffers → DuringCall c tr AllMarked ∨ ∃ b, FreedBehind c b tr

theorem Searched.same (h : Searched c tr s n) (hstep : step a s = some t)
    (hcall : (t.client c).pc.InCall = true → (s.client c).pc.InCall = true) :
    Searched c (tr ++ [⟨s, a, t⟩]) t n := by
  refine ⟨fun b hb ↦ ?_, fun ht b hb ↦ ?_, fun hn ↦ ?_⟩
  · obtain ⟨m, hm, hseen⟩ := h.examined b hb
    exact ⟨m, List.mem_append_left _ hm, hseen⟩
  · rcases h.marked (hcall ht) b hb with hvalid | hfreed
    · refine (valid_of_step hstep hvalid).imp_right fun hunlink ↦ ?_
      obtain ⟨m, hm, hseen, -⟩ := h.examined b hb
      exact ⟨tr, _, rfl, ⟨m, hm, hseen⟩, _, List.mem_singleton_self _, hcall ht, hunlink⟩
    · exact .inr hfreed.append
  · rcases h.full hn with hall | ⟨b, hfreed⟩
    · exact .inl hall.append
    · exact .inr ⟨b, hfreed.append⟩

omit [DecidableEq C] in
theorem Searched.examine (h : Searched c tr s b) (hseen : Examines c b ⟨s, a, t⟩)
    (hb : s.valid b = true) (hvalid : t.valid = s.valid) :
    Searched c (tr ++ [⟨s, a, t⟩]) t (b + 1) := by
  have hcall : (s.client c).pc.InCall = true := by
    rw [hseen.2]
    rfl
  -- the slots up to `b` are marked now, or one of them has been freed
  have hmarked : ∀ b' : Buffno, b'.val < b.val + 1 → s.valid b' = true ∨ FreedBehind c b' tr := by
    intro b' hb'
    rcases Nat.lt_succ_iff_lt_or_eq.mp hb' with hlt | heq
    · exact h.marked hcall b' hlt
    · rw [Fin.ext heq]
      exact .inl hb
  refine ⟨fun b' hb' ↦ ?_, fun _ b' hb' ↦ ?_, fun hn ↦ ?_⟩
  · rcases Nat.lt_succ_iff_lt_or_eq.mp hb' with hlt | heq
    · obtain ⟨m, hm, hseen⟩ := h.examined b' hlt
      exact ⟨m, List.mem_append_left _ hm, hseen⟩
    · rw [Fin.ext heq]
      exact ⟨_, List.mem_append_right _ (List.mem_singleton_self _), hseen, hb⟩
  · rw [hvalid]
    exact (hmarked b' hb').imp_right FreedBehind.append
  · by_cases hfreed : ∃ b', FreedBehind c b' tr
    · obtain ⟨b', hfreed⟩ := hfreed
      exact .inr ⟨b', hfreed.append⟩
    · refine .inl ⟨_, List.mem_append_right _ (List.mem_singleton_self _), hcall, .inl fun b' ↦ ?_⟩
      exact (hmarked b' (by rw [hn]; exact b'.isLt)).resolve_right fun hf ↦ hfreed ⟨b', hf⟩

theorem searched_of_run (hrun : Run step (start C) tr s) :
    ∀ n, (s.client c).pc.passed = some n → Searched c tr s n := by
  generalize hs₀ : start C = s₀ at hrun
  induction hrun with
  | nil =>
    subst hs₀
    exact fun n hn ↦ by cases hn
  | @snoc s t tr a _ hstep ih =>
    intro n hn
    rcases passed_of_step hstep hn with rfl | ⟨hsame, hcall⟩ | ⟨b, rfl, hseen, hb, hvalid⟩
    · refine ⟨fun b hb ↦ ?_, fun _ b hb ↦ ?_, nofun⟩
      · exact absurd hb b.val.not_lt_zero
      · exact absurd hb b.val.not_lt_zero
    · exact (ih n hsame).same hstep hcall
    · refine (ih b ?_).examine hseen hb hvalid
      rw [show (s.client c).pc = .test b from hseen.2]
      rfl

/-! ## Making clients attach and leave -/

section

variable {ok : (Buffno → Bool) → Prop} {v : Buffno → Bool} {f : C → Client}

/-- Reached through valid bits that are `ok`. -/
def ReachedBy (ok : (Buffno → Bool) → Prop) (s : State C) : Prop :=
  ReachableBy step (fun s ↦ s = start C) (fun m ↦ ok m.dst.valid) s

namespace ReachedBy

theorem run (h : ReachedBy ok s) (c : C) (hstep : Stats.run c s = some t) (hok : ok t.valid) :
    ReachedBy ok t := h.snoc (a := .run c) hstep hok

/-- `c` calls `stats_init`. -/
theorem enter (h : ReachedBy ok ⟨1, v, f⟩) (hc : f c = ⟨.start, none, none⟩) (hok : ok v) :
    ReachedBy ok ⟨1, v, update f c ⟨scan 0, none, none⟩⟩ :=
  h.run c (by simp [Stats.run, State.goto, State.put, hc]) hok

/-- `c` finds a slot in use. -/
theorem pass (h : ReachedBy ok ⟨1, v, f⟩) (hc : f c = ⟨.wait b, none, none⟩) (hb : v b = true)
    (hok : ok v) : ReachedBy ok ⟨1, v, update f c ⟨scan (b + 1), none, none⟩⟩ := by
  have h1 := h.run c (t := ⟨0, v, update f c ⟨.test b, none, none⟩⟩)
    (by simp [Stats.run, State.goto, State.put, State.semWait, hc]) hok
  have h2 := h1.run c (t := ⟨0, v, update f c ⟨.post b false, none, none⟩⟩)
    (by simp [Stats.run, State.goto, State.put, hb]) hok
  exact h2.run c (by simp [Stats.run, State.goto, State.put, State.semPost]) hok

/-- `c` takes a free slot. -/
theorem attach (h : ReachedBy ok ⟨1, v, f⟩) (hc : f c = ⟨.wait b, none, none⟩) (hb : v b = false)
    (hv : ok v) (hok : ok (update v b true)) :
    ReachedBy ok ⟨1, update v b true, update f c ⟨.loop, some b, some b⟩⟩ := by
  have h1 := h.run c (t := ⟨0, v, update f c ⟨.test b, none, none⟩⟩)
    (by simp [Stats.run, State.goto, State.put, State.semWait, hc]) hv
  have h2 := h1.run c (t := ⟨0, v, update f c ⟨.set b, none, none⟩⟩)
    (by simp [Stats.run, State.goto, State.put, hb]) hv
  have h3 := h2.run c (t := ⟨0, update v b true, update f c ⟨.post b true, none, some b⟩⟩)
    (by simp [Stats.run, State.put, State.mark]) hok
  have h4 := h3.run c (t := ⟨1, update v b true, update f c ⟨.publish b, none, some b⟩⟩)
    (by simp [Stats.run, State.goto, State.put, State.semPost]) hok
  exact h4.run c (by simp [Stats.run, State.put]) hok

/-- `c` takes SIGINT in its loop. -/
theorem leave (h : ReachedBy ok ⟨1, v, f⟩) (hc : f c = ⟨.loop, some b, some b⟩) (hb : v b = true)
    (hv : ok v) (hok : ok (update v b false)) :
    ReachedBy ok ⟨1, update v b false, update f c ⟨.exited 0, some b, none⟩⟩ := by
  have h1 : ReachedBy ok ⟨1, v, update f c ⟨.unlink, some b, some b⟩⟩ :=
    h.snoc (a := .sigint c) (by simp [step, Pc.Interruptible, State.goto, State.put, hc]) hv
  have h2 := h1.run c (t := ⟨1, v, update f c ⟨.unlinkWait, some b, some b⟩⟩)
    (by simp [Stats.run, State.goto, State.put, hb]) hv
  have h3 := h2.run c (t := ⟨0, v, update f c ⟨.clear, some b, some b⟩⟩)
    (by simp [Stats.run, State.goto, State.put, State.semWait]) hv
  have h4 := h3.run c (t := ⟨0, update v b false, update f c ⟨.unlinkPost, some b, none⟩⟩)
    (by simp [Stats.run, State.put, State.mark]) hok
  have h5 := h4.run c (t := ⟨1, update v b false, update f c ⟨.close, some b, none⟩⟩)
    (by simp [Stats.run, State.goto, State.put, State.semPost]) hok
  exact h5.run c (by simp [Stats.run, State.goto, State.put]) hok

/-- `c` goes on past marked slots. -/
theorem passTo {m : ℕ} (h : ReachedBy ok ⟨1, v, f⟩) (hc : f c = ⟨scan m, none, none⟩)
    (hmn : m ≤ n) (hn : n ≤ numberOfBuffers) (hb : ∀ b : Buffno, m ≤ b → b < n → v b = true)
    (hok : ok v) : ReachedBy ok ⟨1, v, update f c ⟨scan n, none, none⟩⟩ := by
  induction n, hmn using Nat.le_induction with
  | base => rwa [← hc, update_eq_self]
  | succ n hmn ih =>
    have hscan : scan n = .wait ⟨n, hn⟩ := dif_pos hn
    have hpass := ih (Nat.le_of_succ_le hn) fun b h1 h2 ↦ hb b h1 (Nat.lt_succ_of_lt h2)
    rw [hscan] at hpass
    simpa using hpass.pass (update_self ..) (hb _ hmn (Nat.lt_succ_self n)) hok

/-- `c` calls `stats_init` and gets past marked slots. -/
theorem search (h : ReachedBy ok ⟨1, v, f⟩) (hc : f c = ⟨.start, none, none⟩)
    (hn : n ≤ numberOfBuffers) (hb : ∀ b : Buffno, b < n → v b = true) (hok : ok v) :
    ReachedBy ok ⟨1, v, update f c ⟨scan n, none, none⟩⟩ := by
  simpa using (h.enter hc hok).passTo (update_self ..) (Nat.zero_le n) hn (fun b _ ↦ hb b) hok

end ReachedBy

/-- The first `n` slots are marked. -/
def bits (n : ℕ) (b : Buffno) : Bool := b < n

/-- One client for each slot, of which the first `n` have attached, and one more. -/
def attached (n : ℕ) : Option Buffno → Client
  | some b => if b < n then ⟨.loop, some b, some b⟩ else ⟨.start, none, none⟩
  | none => ⟨.start, none, none⟩

theorem update_bits (b : Buffno) : update (bits b) b true = bits (b + 1) := by
  funext b'
  by_cases heq : b' = b
  · rw [heq, update_self]
    exact (decide_eq_true (Nat.lt_succ_self _)).symm
  · have hne : b'.val ≠ b.val := fun h ↦ heq (Fin.ext h)
    rw [update_of_ne heq, bits, bits, decide_eq_decide]
    omega

theorem update_attached (b : Buffno) :
    update (attached b) (some b) ⟨.loop, some b, some b⟩ = attached (b + 1) := by
  funext c
  cases c with
  | none => rfl
  | some b' =>
    by_cases heq : b' = b
    · rw [heq, update_self]
      exact (if_pos (Nat.lt_succ_self _)).symm
    · have hne : b'.val ≠ b.val := fun h ↦ heq (Fin.ext h)
      have hlt : b'.val < b ↔ b'.val < b + 1 := by omega
      rw [update_of_ne (fun h ↦ heq (Option.some.inj h)), attached, attached, if_congr hlt rfl rfl]

theorem reachedBy_attached (ok : (Buffno → Bool) → Prop) (hn : n ≤ numberOfBuffers)
    (hok : ∀ m ≤ n, ok (bits m)) :
    ReachedBy ok ⟨1, bits n, attached n⟩ := by
  induction n with
  | zero =>
    refine .refl ?_
    rw [start]
    congr
    funext c
    cases c with
    | none => rfl
    | some b => rfl
  | succ n ih =>
    let b : Buffno := ⟨n, hn⟩
    have hreach := ih (Nat.le_of_succ_le hn) fun m hm ↦ hok m (Nat.le_succ_of_le hm)
    have hstart : attached n (some b) = ⟨.start, none, none⟩ := if_neg (Nat.lt_irrefl n)
    have hsearch := hreach.search hstart (Nat.le_of_succ_le hn) (fun b' h ↦ decide_eq_true h)
      (hok n (Nat.le_succ n))
    have hscan : scan n = .wait b := dif_pos hn
    rw [hscan] at hsearch
    have hattach := hsearch.attach (update_self ..) (decide_eq_false (Nat.lt_irrefl n))
      (hok n (Nat.le_succ n)) (update_bits b ▸ hok (n + 1) (Nat.le_refl _))
    rwa [update_idem, update_bits b, update_attached b] at hattach

end

/-- **What NULL says.** When `stats_init` returns NULL, it has examined each slot when it was marked
in use, and at some instant of the call all slots were, unless one was freed behind the search. -/
theorem init_null (hrun : Run step (start C) tr s) (hnull : (s.client c).pc = .returned) :
    (∀ b, ∃ m ∈ tr, Examines c b m ∧ m.src.valid b = true) ∧
      (DuringCall c tr AllMarked ∨ ∃ b, FreedBehind c b tr) := by
  have h : Searched c tr s numberOfBuffers := searched_of_run hrun _ (by rw [hnull]; rfl)
  exact ⟨fun b ↦ h.examined b b.isLt, h.full rfl⟩

/-- Sixteen clients have attached when one more calls. -/
theorem exists_null : ∃ tr s, Run step (start (Option Buffno)) tr s ∧
    (s.client none).pc = .returned := by
  have hreach := reachedBy_attached (fun _ ↦ True) (Nat.le_refl numberOfBuffers)
    fun _ _ ↦ trivial
  obtain ⟨_, tr, rfl, hrun, -⟩ := hreach.search (n := numberOfBuffers) (c := none) rfl
    (Nat.le_refl _) (fun b _ ↦ decide_eq_true b.isLt) trivial
  exact ⟨tr, _, hrun, rfl⟩

theorem init_null_full : ∃ tr s, Run step (start (Option Buffno)) tr s ∧
    (s.client none).pc = .returned ∧
    (∀ b, ∃ m ∈ tr, Examines none b m ∧ m.src.valid b = true) ∧
      (DuringCall none tr AllMarked ∨ ∃ b, FreedBehind none b tr) := by
  obtain ⟨tr, s, hrun, hnull⟩ := exists_null
  exact ⟨tr, s, hrun, hnull, init_null hrun hnull⟩

/-- While the last client looks for a slot, the first gives up slot 0 behind the search, and then
another takes slot 15 before the search gets there. -/
theorem exists_null_not_full : ∃ tr s, Run step (start (Option Buffno)) tr s ∧
    (s.client none).pc = .returned ∧ ∀ m ∈ tr, ¬AllMarked m.src ∧ ¬AllMarked m.dst := by
  let ok (v : Buffno → Bool) : Prop := ¬∀ b, v b = true
  have hok : ∀ m ≤ 15, ok (bits m) := fun m hm h ↦ by
    have h15 := of_decide_eq_true (h 15)
    exact absurd h15 (Nat.not_lt.mpr hm)
  have h15 := hok 15 (Nat.le_refl _)
  have hbits : ∀ b : Buffno, b.val < 15 → bits 15 b = true := fun b hb ↦ decide_eq_true hb
  -- fifteen attach, the sixteenth has passed their slots, the last one has passed slot 0
  have h1 := (reachedBy_attached ok (n := 15) (by decide) hok).search (c := some 15) (n := 15) rfl
    (by decide) hbits h15
  have h2 := h1.search (c := none) (n := 1) rfl (by decide) (fun b hb ↦ hbits b (by omega)) h15
  -- slot 0 is freed
  have hok3 : ok (update (bits 15) 0 false) := fun h ↦ by simpa using h 0
  have h3 := h2.leave (c := some 0) (b := 0) rfl rfl h15 hok3
  -- slot 15 is taken
  have hok4 : ok (update (update (bits 15) 0 false) 15 true) := fun h ↦ by simpa using h 0
  have h4 := h3.attach (c := some 15) (b := 15) rfl rfl hok3 hok4
  have hbits4 : ∀ b : Buffno, 1 ≤ b.val → b.val < numberOfBuffers →
      update (update (bits 15) 0 false) 15 true b = true := fun b hb _ ↦ by
    by_cases heq : b = 15
    · rw [heq, update_self]
    · have hne : b.val ≠ 15 := fun h ↦ heq (Fin.ext h)
      have hlt : b.val < 16 := b.isLt
      rw [update_of_ne heq, update_of_ne (fun h ↦ by subst h; cases hb)]
      exact hbits b (by omega)
  obtain ⟨_, tr, rfl, hrun, htr⟩ := h4.passTo (c := none) (n := numberOfBuffers) rfl (by decide)
    (Nat.le_refl _) hbits4 hok4
  refine ⟨tr, _, hrun, rfl, fun m hm ↦ ⟨?_, htr m hm⟩⟩
  have hstart : ¬AllMarked (start (Option Buffno)) := fun h ↦ by cases h 0
  exact (hrun.src_of_dst (P := fun s ↦ ¬AllMarked s) hstart htr).2 m hm

theorem not_init_null_full : ¬∀ (C : Type) [DecidableEq C] (c : C)
    (tr : List (Move (State C) (Act C))) (s : State C), Run step (start C) tr s →
      (s.client c).pc = .returned → DuringCall c tr AllMarked := by
  intro h
  obtain ⟨tr, s, hrun, hnull, htr⟩ := exists_null_not_full
  obtain ⟨m, hm, -, hsrc | hdst⟩ := h _ none tr s hrun hnull
  · exact (htr m hm).1 hsrc
  · exact (htr m hm).2 hdst

end CS537.Stats
