import CS537.Stats.Client
import Mathlib.Data.Fintype.Card

/-!
# The slots of a segment

A client that has claimed a slot is its only owner. The search takes the semaphore for each slot
anew, but it looks at a slot and marks it in one critical section, and only the owner marks it free.
This also holds with signals in critical sections, after which the semaphore is lost.
-/

namespace CS537.Stats

open Function Transition

variable {C : Type} [DecidableEq C] {s t : State C} {a : Act C} {c : C} {x : Client} {b : Buffno}

/-! ## The state of one client -/

/-- `validbitaddr` is the claimed slot. -/
def Client.Linked (x : Client) : Prop := ∃ b, x.validbitaddr = some b ∧ x.claimed = some b

/-- What a client has claimed and published, by where it is. -/
def Client.Ok (x : Client) : Prop :=
  match x.pc with
  | .start | .wait _ | .test _ | .set _ | .post _ false | .returned =>
    x.validbitaddr = none ∧ x.claimed = none
  | .post b true | .publish b => x.validbitaddr = none ∧ x.claimed = some b
  | .loop | .update | .unlinkWait | .clear => x.Linked
  | .unlink => x.validbitaddr = none ∨ x.Linked
  | .unlinkPost | .close | .exited _ => x.claimed = none
  | .crashed => x.validbitaddr = none

theorem Client.Ok.interrupt (h : x.Ok) (hpc : x.pc.Interruptible = true) :
    x.validbitaddr = none ∨ x.Linked := by
  rw [Client.Ok] at h
  split at h
  case h_1 | h_2 | h_3 | h_4 | h_6 => exact .inl h.1
  case h_5 => exact .inl h.1
  case h_7 | h_8 => exact .inl h.1
  case h_9 | h_10 => exact .inr h
  case h_11 | h_12 => exact .inr h
  case h_13 => exact h
  case h_17 => exact .inl h
  case h_14 hx | h_15 hx | h_16 hx =>
    rw [hx] at hpc
    cases hpc

theorem not_inSection_scan (n : ℕ) : (scan n).InSection = false := by
  rw [scan]
  split
  · rfl
  · rfl

theorem scan_ne_set (n : ℕ) (b : Buffno) : scan n ≠ .set b := by
  rw [scan]
  split
  · exact nofun
  · exact nofun

theorem Client.ok_scan (n : ℕ) (h1 : x.validbitaddr = none) (h2 : x.claimed = none) :
    Client.Ok { x with pc := scan n } := by
  rw [scan]
  split
  · exact ⟨h1, h2⟩
  · exact ⟨h1, h2⟩

/-! ## The state of a segment -/

/-- The semaphore counts the one client that may be in its critical section; the marked slots are
the claimed ones, each claimed once. -/
structure SlotsOk (s : State C) : Prop where
  mutex : s.mutex = 0 ∨ s.mutex = 1 ∧ ∀ c, (s.client c).pc.InSection = false
  one : ∀ c c', (s.client c).pc.InSection = true → (s.client c').pc.InSection = true → c = c'
  owner : ∀ c c' b, (s.client c).claimed = some b → (s.client c').claimed = some b → c = c'
  marked : ∀ c b, (s.client c).claimed = some b → s.valid b = true
  claimed : ∀ b, s.valid b = true → ∃ c, (s.client c).claimed = some b
  free : ∀ c b, (s.client c).pc = .set b → s.valid b = false
  ok : ∀ c, (s.client c).Ok

/-- A property of all clients after a move of one of them. -/
theorem forall_put {P : C → Client → Prop} (hc : P c x) (h : ∀ c', c' ≠ c → P c' (s.client c')) :
    ∀ c', P c' ((s.put c x).client c') := by
  intro c'
  by_cases heq : c' = c
  · subst heq
    rwa [put_client_self]
  · rw [put_client_of_ne s x heq]
    exact h c' heq

/-- The claims after a move that does not claim. -/
theorem claimed_put (hclaim : x.claimed = (s.client c).claimed) (c' : C) :
    ((s.put c x).client c').claimed = (s.client c').claimed := by
  by_cases heq : c' = c
  · subst heq
    rw [put_client_self, hclaim]
  · rw [put_client_of_ne s x heq]

namespace SlotsOk

section

omit [DecidableEq C]

variable (hs : SlotsOk s)

include hs

theorem mutex_eq_zero (hin : (s.client c).pc.InSection = true) : s.mutex = 0 := by
  rcases hs.mutex with h | ⟨-, h⟩
  · exact h
  · rw [h c] at hin
    cases hin

theorem mutex_eq_one (hpos : 0 < s.mutex) :
    s.mutex = 1 ∧ ∀ c, (s.client c).pc.InSection = false := by
  rcases hs.mutex with h | h
  · omega
  · exact h

/-- While one client is in its critical section, no other is. -/
theorem others (hin : (s.client c).pc.InSection = true) {c' : C} (hne : c' ≠ c) :
    (s.client c').pc.InSection = false := by
  rw [Bool.eq_false_iff]
  exact fun h ↦ hne (hs.one c' c h hin)

theorem okAt {pc : Pc} (hpc : (s.client c).pc = pc) : Client.Ok { s.client c with pc := pc } := by
  rw [← hpc]
  exact hs.ok c

end

variable (hs : SlotsOk s)

include hs

/-- A move that leaves the slots alone. -/
theorem keep {m : ℕ} (hmutex : m = 0 ∨ m = 1 ∧ x.pc.InSection = false ∧
      ∀ c', c' ≠ c → (s.client c').pc.InSection = false)
    (hone : x.pc.InSection = true → ∀ c', c' ≠ c → (s.client c').pc.InSection = false)
    (hclaim : x.claimed = (s.client c).claimed) (hfree : ∀ b, x.pc = .set b → s.valid b = false)
    (hok : x.Ok) : SlotsOk (State.put { s with mutex := m } c x) := by
  have hclaims := claimed_put (s := { s with mutex := m }) hclaim
  refine ⟨?_, fun c₁ c₂ h1 h2 ↦ ?_, fun c₁ c₂ b h1 h2 ↦ ?_, fun c₁ b h1 ↦ ?_, fun b hb ↦ ?_, ?_, ?_⟩
  · rcases hmutex with h | ⟨h, hx, hrest⟩
    · exact .inl h
    · exact .inr ⟨h, forall_put (P := fun _ y ↦ y.pc.InSection = false) hx hrest⟩
  · -- the client that moves may be in its section only if the others are not
    by_cases hc₁ : c₁ = c
    · by_cases hc₂ : c₂ = c
      · rw [hc₁, hc₂]
      · rw [hc₁, put_client_self] at h1
        rw [put_client_of_ne _ _ hc₂] at h2
        exact absurd h2 (Bool.eq_false_iff.mp (hone h1 c₂ hc₂))
    · rw [put_client_of_ne _ _ hc₁] at h1
      by_cases hc₂ : c₂ = c
      · rw [hc₂, put_client_self] at h2
        exact absurd h1 (Bool.eq_false_iff.mp (hone h2 c₁ hc₁))
      · rw [put_client_of_ne _ _ hc₂] at h2
        exact hs.one c₁ c₂ h1 h2
  · rw [hclaims] at h1 h2
    exact hs.owner c₁ c₂ b h1 h2
  · rw [hclaims] at h1
    exact hs.marked c₁ b h1
  · obtain ⟨c₁, h1⟩ := hs.claimed b hb
    exact ⟨c₁, (hclaims c₁).trans h1⟩
  · exact forall_put (P := fun _ y ↦ ∀ b, y.pc = .set b → s.valid b = false) hfree
      fun c' _ ↦ hs.free c'
  · exact forall_put (P := fun _ y ↦ y.Ok) hok fun c' _ ↦ hs.ok c'

/-- A move outside of the critical sections, or one that stays in its section or is torn out of
it. -/
theorem put (hin : x.pc.InSection = true → (s.client c).pc.InSection = true)
    (hclaim : x.claimed = (s.client c).claimed) (hfree : ∀ b, x.pc = .set b → s.valid b = false)
    (hok : x.Ok) : SlotsOk (s.put c x) := by
  refine hs.keep (m := s.mutex) ?_ (fun h c' hne ↦ hs.others (hin h) hne) hclaim hfree hok
  rcases hs.mutex with h | ⟨h, hall⟩
  · exact .inl h
  · refine .inr ⟨h, Bool.eq_false_iff.mpr fun hx ↦ ?_, fun c' _ ↦ hall c'⟩
    exact absurd (hin hx) (Bool.eq_false_iff.mp (hall c))

/-- `sem_wait`. -/
theorem enter (hpos : 0 < s.mutex) (hclaim : x.claimed = (s.client c).claimed)
    (hset : ∀ b, x.pc ≠ .set b) (hok : x.Ok) : SlotsOk (s.semWait.put c x) := by
  obtain ⟨hone, hall⟩ := hs.mutex_eq_one hpos
  exact hs.keep (.inl (by rw [hone])) (fun _ c' _ ↦ hall c') hclaim (fun b h ↦ absurd h (hset b))
    hok

/-- `sem_post`. -/
theorem leave (hin : (s.client c).pc.InSection = true) (hout : x.pc.InSection = false)
    (hclaim : x.claimed = (s.client c).claimed) (hok : x.Ok) : SlotsOk (s.semPost.put c x) := by
  have hzero := hs.mutex_eq_zero hin
  refine hs.keep (.inr ⟨by rw [hzero], hout, fun c' hne ↦ hs.others hin hne⟩) (fun h ↦ ?_) hclaim
    (fun b h ↦ ?_) hok
  · rw [hout] at h
    cases h
  · rw [h] at hout
    cases hout

/-- In its critical section a client marks a slot, and the marked slots remain the claimed ones. -/
theorem mark {v : Bool} (hin : (s.client c).pc.InSection = true)
    (hset : ∀ b, x.pc ≠ .set b) (hok : x.Ok)
    (hsole : ∀ c', c' ≠ c → ∀ b', (s.client c').claimed = some b' → x.claimed ≠ some b')
    (hvalid : ∀ b', Function.update s.valid b v b' = true ↔
      x.claimed = some b' ∨ ∃ c', c' ≠ c ∧ (s.client c').claimed = some b') :
    SlotsOk ((s.mark b v).put c x) := by
  have hother : ∀ c', c' ≠ c → ((s.mark b v).put c x).client c' = s.client c' := fun c' hne ↦
    put_client_of_ne _ _ hne
  have hself : ((s.mark b v).put c x).client c = x := put_client_self ..
  refine ⟨.inl (hs.mutex_eq_zero hin), fun c₁ c₂ h1 h2 ↦ ?_, fun c₁ c₂ b' h1 h2 ↦ ?_,
    fun c₁ b' h1 ↦ (hvalid b').mpr ?_, fun b' hb' ↦ ?_, ?_, ?_⟩
  · have hc : ∀ c₁, (((s.mark b v).put c x).client c₁).pc.InSection = true → c₁ = c := by
      intro c₁ h
      by_contra hne
      rw [hother c₁ hne, hs.others hin hne] at h
      cases h
    rw [hc c₁ h1, hc c₂ h2]
  · by_cases hc₁ : c₁ = c
    · by_cases hc₂ : c₂ = c
      · rw [hc₁, hc₂]
      · rw [hc₁, hself] at h1
        rw [hother c₂ hc₂] at h2
        exact absurd h1 (hsole c₂ hc₂ b' h2)
    · rw [hother c₁ hc₁] at h1
      by_cases hc₂ : c₂ = c
      · rw [hc₂, hself] at h2
        exact absurd h2 (hsole c₁ hc₁ b' h1)
      · rw [hother c₂ hc₂] at h2
        exact hs.owner c₁ c₂ b' h1 h2
  · by_cases hc₁ : c₁ = c
    · rw [hc₁, hself] at h1
      exact .inl h1
    · rw [hother c₁ hc₁] at h1
      exact .inr ⟨c₁, hc₁, h1⟩
  · rcases (hvalid b').mp hb' with h | ⟨c₁, hne, h⟩
    · exact ⟨c, by rwa [hself]⟩
    · exact ⟨c₁, by rwa [hother c₁ hne]⟩
  -- nobody else is about to mark a slot
  · refine forall_put (P := fun _ y ↦ ∀ b', y.pc = .set b' → Function.update s.valid b v b' = false)
      (fun b' h ↦ absurd h (hset b')) fun c' hne b' h ↦ ?_
    have hout := hs.others hin hne
    change (s.client c').pc = .set b' at h
    rw [h] at hout
    cases hout
  · exact forall_put (P := fun _ y ↦ y.Ok) hok fun c' _ ↦ hs.ok c'

/-- The marked slots are those of the client and those of the others. -/
theorem valid_iff (b : Buffno) : s.valid b = true ↔
    (s.client c).claimed = some b ∨ ∃ c', c' ≠ c ∧ (s.client c').claimed = some b := by
  constructor
  · intro h
    obtain ⟨c', hc'⟩ := hs.claimed b h
    by_cases heq : c' = c
    · subst heq
      exact .inl hc'
    · exact .inr ⟨c', heq, hc'⟩
  · rintro (h | ⟨c', -, h⟩)
    · exact hs.marked c b h
    · exact hs.marked c' b h

/-- A client claims a free slot. -/
theorem set (hpc : (s.client c).pc = .set b) : SlotsOk ((s.mark b true).put c
    { s.client c with pc := .post b true, claimed := some b }) := by
  have hfree := hs.free c b hpc
  have hok := hs.ok c
  rw [Client.Ok, hpc] at hok
  refine hs.mark (by rw [hpc]; rfl) nofun ⟨hok.1, rfl⟩ (fun c' _ b' h heq ↦ ?_)
    fun b' ↦ ?_
  · obtain rfl := Option.some.inj heq
    rw [hs.marked c' b h] at hfree
    cases hfree
  · simp only [Option.some.injEq]
    by_cases heq : b' = b
    · subst heq
      rw [update_self]
      exact iff_of_true rfl (.inl rfl)
    · rw [update_of_ne heq, hs.valid_iff (c := c), hok.2]
      refine or_congr_left (iff_of_false (by simp) fun h ↦ heq h.symm)

/-- A client gives up its slot. -/
theorem clear (hpc : (s.client c).pc = .clear) (haddr : (s.client c).validbitaddr = some b) :
    SlotsOk ((s.mark b false).put c { s.client c with pc := .unlinkPost, claimed := none }) := by
  have hclaim : (s.client c).claimed = some b := by
    have hok := hs.ok c
    rw [Client.Ok, hpc] at hok
    obtain ⟨b', h1, h2⟩ := hok
    rwa [Option.some.inj (haddr.symm.trans h1)]
  refine hs.mark (by rw [hpc]; rfl) nofun rfl (fun c' _ b' _ heq ↦ by cases heq)
    fun b' ↦ ?_
  by_cases heq : b' = b
  · subst heq
    rw [update_self]
    refine iff_of_false (by simp) ?_
    rintro (h | ⟨c', hne, h⟩)
    · cases h
    · exact hne (hs.owner c' c b' h hclaim)
  · rw [update_of_ne heq, hs.valid_iff (c := c), hclaim]
    refine or_congr_left (iff_of_false (fun h ↦ heq (Option.some.inj h).symm) (by simp))

/-- **Every move keeps the slots.** -/
theorem step (hstep : step a s = some t) : SlotsOk t := by
  cases trans_of_step hstep with
  | other => exact hs
  | @sigint c hpc =>
    exact hs.put nofun rfl nofun ((hs.ok c).interrupt hpc)
  | @enter c hpc =>
    obtain ⟨haddr, hclaim⟩ := hs.okAt hpc
    refine hs.put (fun h ↦ ?_) rfl (fun b h ↦ ?_) (Client.ok_scan 0 haddr hclaim)
    · rw [not_inSection_scan] at h
      cases h
    · exact absurd h (scan_ne_set 0 b)
  | wait hpc hmutex =>
    have hok := hs.okAt hpc
    exact hs.enter hmutex rfl nofun hok
  | used hpc hb =>
    have hok := hs.okAt hpc
    exact hs.put (fun _ ↦ by rw [hpc]; rfl) rfl nofun hok
  | free hpc hb =>
    have hok := hs.okAt hpc
    refine hs.put (fun _ ↦ by rw [hpc]; rfl) rfl (fun b' h ↦ ?_) hok
    cases h
    exact hb
  | set hpc => exact hs.set hpc
  | found hpc =>
    have hok := hs.okAt hpc
    exact hs.leave (by rw [hpc]; rfl) rfl rfl hok
  | @next c b hpc =>
    obtain ⟨haddr, hclaim⟩ := hs.okAt hpc
    exact hs.leave (by rw [hpc]; rfl) (not_inSection_scan _) rfl (Client.ok_scan _ haddr hclaim)
  | @publish c b hpc =>
    obtain ⟨-, hclaim⟩ := hs.okAt hpc
    exact hs.put nofun rfl nofun ⟨b, rfl, hclaim⟩
  | loop hpc hmutex =>
    have hok := hs.okAt hpc
    exact hs.enter hmutex rfl nofun hok
  | update hpc =>
    have hok := hs.okAt hpc
    exact hs.leave (by rw [hpc]; rfl) rfl rfl hok
  | returned hpc =>
    exact hs.put nofun rfl nofun (hs.okAt hpc).2
  | @null c hpc haddr => exact hs.put nofun rfl nofun haddr
  | @unlink c b hpc haddr hb =>
    refine hs.put nofun rfl nofun ?_
    exact (hs.okAt hpc).resolve_left fun h ↦ by rw [haddr] at h; cases h
  | @notLinked c b hpc haddr hb =>
    -- its own slot is marked, so `stats_unlink` does not take the client for one without a slot
    rcases hs.okAt hpc with h | ⟨b', haddr', hclaim⟩
    · rw [haddr] at h
      cases h
    · obtain rfl := Option.some.inj (haddr.symm.trans haddr')
      rw [hs.marked c b hclaim] at hb
      cases hb
  | unlinkWait hpc hmutex =>
    have hok := hs.okAt hpc
    exact hs.enter hmutex rfl nofun hok
  | clear hpc haddr => exact hs.clear hpc haddr
  | unlinkPost hpc =>
    have hok := hs.okAt hpc
    exact hs.leave (by rw [hpc]; rfl) rfl rfl hok
  | close hpc =>
    have hok := hs.okAt hpc
    exact hs.put nofun rfl nofun hok

omit [DecidableEq C] hs in
theorem start : SlotsOk (start C) where
  mutex := .inr ⟨rfl, fun _ ↦ rfl⟩
  one _ _ := nofun
  owner _ _ _ := nofun
  marked _ _ := nofun
  claimed _ := nofun
  free _ _ := nofun
  ok _ := ⟨rfl, rfl⟩

omit hs in
theorem of_reachable (h : Reachable Stats.step (fun s ↦ s = Stats.start C) s) : SlotsOk s :=
  h.invariant (fun _ h₀ ↦ h₀ ▸ .start) fun hs hstep _ ↦ hs.step hstep

omit [DecidableEq C] in
/-- Clients that have claimed slots are no more than the slots. -/
theorem card_le (A : Finset C) (hA : ∀ c ∈ A, (s.client c).claimed.isSome) :
    A.card ≤ numberOfBuffers := by
  have hslot : ∀ c ∈ A, ∃ b, (s.client c).claimed = some b := fun c hc ↦
    Option.isSome_iff_exists.mp (hA c hc)
  choose! slot hslot using hslot
  rw [← Fintype.card_fin numberOfBuffers, ← Finset.card_univ]
  refine Finset.card_le_card_of_injOn slot (fun _ _ ↦ Finset.mem_coe.mpr (Finset.mem_univ _)) ?_
  intro c hc c' hc' heq
  refine hs.owner c c' (slot c) (hslot c hc) ?_
  rw [heq]
  exact hslot c' hc'

end SlotsOk

/-! ## Runs -/

/-- **Slots are exclusive.** In every reachable state no two clients have claimed one slot, the
marked slots are those claimed, each by exactly one client, and a client that has returned from
`stats_init` has the address of the slot it claimed. -/
theorem slots_exclusive (h : Reachable step (fun s ↦ s = start C) s) :
    (∀ c c' b, (s.client c).claimed = some b → (s.client c').claimed = some b → c = c') ∧
    (∀ c b, (s.client c).claimed = some b → s.valid b = true) ∧
    (∀ b, s.valid b = true → ∃! c, (s.client c).claimed = some b) ∧
    (∀ A : Finset C, (∀ c ∈ A, (s.client c).claimed.isSome) → A.card ≤ numberOfBuffers) ∧
    ∀ c, (s.client c).pc = .loop ∨ (s.client c).pc = .update ∨ (s.client c).pc = .unlinkWait →
      ∃ b, (s.client c).validbitaddr = some b ∧ (s.client c).claimed = some b := by
  have hs := SlotsOk.of_reachable h
  refine ⟨hs.owner, hs.marked, fun b hb ↦ ?_, hs.card_le, ?_⟩
  · obtain ⟨c, hc⟩ := hs.claimed b hb
    exact ⟨c, hc, fun c' hc' ↦ hs.owner c' c b hc' hc⟩
  · rintro c (hpc | hpc | hpc)
    · exact hs.okAt hpc
    · exact hs.okAt hpc
    · exact hs.okAt hpc

/-- The first of two clients is in its loop when the second claims a slot. -/
def twoAttached : State (Fin 2) :=
  (replay step (List.replicate 6 (.run 0) ++ List.replicate 7 (.run 1)) (start (Fin 2))).getD
    (start (Fin 2))

theorem reachable_twoAttached : Reachable step (fun s ↦ s = start (Fin 2)) twoAttached := by
  have hreplay : replay step (List.replicate 6 (.run 0) ++ List.replicate 7 (.run 1))
      (start (Fin 2)) = some twoAttached := rfl
  obtain ⟨tr, hrun, -⟩ := exists_run_of_replay hreplay
  exact ⟨_, tr, rfl, hrun, fun _ _ ↦ trivial⟩

theorem slots_exclusive_two :
    (twoAttached.client 0).claimed = some 0 ∧ (twoAttached.client 1).claimed = some 1 ∧
      (twoAttached.client 1).pc = .post 1 true ∧
      ∃! c, (twoAttached.client c).claimed = some 1 := by
  have hvalid : twoAttached.valid 1 = true := by decide
  exact ⟨by decide, by decide, by decide, (slots_exclusive reachable_twoAttached).2.2.1 1 hvalid⟩

end CS537.Stats
