import CS537.Mlfq.Starvation

/-!
# Slices

How many dispatches a process gets at a level before it is moved down. `timeticks[L]` is never
reset: a dispatch at level `L` raises it, and the process moves down when it becomes a multiple of
the slice. Only a promotion into `L` sets it to a full slice, so that a promotion out of `L` in
mid-slice leaves a residue for the next visit.
-/

namespace CS537.Mlfq

open Function Transition Wrapping

variable {ncpu : ℕ} {s t : Kernel ncpu} {a : Act ncpu} {i : Slot}

/-- The move takes the process of the slot one level down. -/
def Demotes (m : Move (Kernel ncpu) (Act ncpu)) (i : Slot) : Prop :=
  (m.dst.proc i).level = (m.src.proc i).level + 1

/-- The move takes the process of the slot one level up. -/
def Promotes (m : Move (Kernel ncpu) (Act ncpu)) (i : Slot) : Prop :=
  (m.dst.proc i).level = (m.src.proc i).level - 1 ∧ ¬Creates m i

/-! ## A move, seen from the ticks of one slot -/

/-- Any move, seen from one slot. -/
inductive TickMove (i : Slot) (s : Kernel ncpu) (a : Act ncpu) (t : Kernel ncpu) : Prop
  | same (hlevel : (t.proc i).level = (s.proc i).level)
    (hticks : (t.proc i).timeticks = (s.proc i).timeticks)
    (hdispatch : ¬Dispatches ⟨s, a, t⟩ i)
  | dispatch (hp : t.proc i = (s.proc i).charged) (hdispatch : Dispatches ⟨s, a, t⟩ i)
  | create (hcreate : Creates ⟨s, a, t⟩ i) (hlevel : (t.proc i).level = 0)
    (hticks : ∀ l : ℤ, 0 ≤ l → l < nlayer → (t.proc i).timeticks l = 0)
    (hdispatch : ¬Dispatches ⟨s, a, t⟩ i)
  | promote (hne : (s.proc i).level ≠ 0) (hlevel : (t.proc i).level = (s.proc i).level - 1)
    (hticks : (t.proc i).timeticks = update (s.proc i).timeticks ((s.proc i).level - 1)
      (mlpqTimeticks ((s.proc i).level - 1)))
    (hcreate : ¬Creates ⟨s, a, t⟩ i) (hdispatch : ¬Dispatches ⟨s, a, t⟩ i)

theorem state_of_boost {c : Fin ncpu} (hstep : step (.boost c) s = some t) (i : Slot) :
    (t.proc i).state = (s.proc i).state := by
  cases trans_of_step hstep with
  | boost hq ht hl => rw [setTrap_state, (checkStarveAndBoost_frame i).1]

/-- Only `allocproc` creates a process. -/
theorem creates_inv (hstep : step a s = some t) (h : Creates ⟨s, a, t⟩ i) :
    ∃ c q, a = .allocproc c ∧ s.caller c = some q ∧
      t = ((s.setProc i ((s.proc i).embryo s.nextpid)).bumpPid).setPos q (.copy i) := by
  obtain ⟨hsrc, hdst⟩ : (s.proc i).state = .unused ∧ (t.proc i).state = .embryo := h
  have hsame : (t.proc i).state ≠ (s.proc i).state := by
    rw [hsrc, hdst]
    simp
  -- no quiet move makes a process EMBRYO, and of the others only `allocproc` does
  rcases quiet_or_loud hstep with hquiet | hloud
  · have hembryo := (hquiet.slot i).embryo hdst
    rw [hsrc] at hembryo
    cases hembryo
  cases hloud with
  | @dispatch c ii p r hc hr =>
    rw [dispatch_proc] at hdst hsame
    rcases eq_or_ne i r with rfl | hne
    · rw [update_self] at hdst
      cases hdst
    · rw [update_of_ne hne] at hsame
      exact absurd rfl hsame
  | @create c r np hr hnp =>
    have hstate := setPos_state (s := (s.setProc np ((s.proc np).embryo s.nextpid)).bumpPid) r i
      (.copy np)
    rw [bumpPid_proc, setProc_proc] at hstate
    rcases eq_or_ne i np with rfl | hne
    · exact ⟨c, r, rfl, hr, rfl⟩
    · rw [update_of_ne hne] at hstate
      exact absurd hstate hsame
  | boost => exact absurd (state_of_boost hstep i) hsame
  | @publish c r np hr =>
    rw [forkPublish, setPos_state, setProc_proc] at hdst hsame
    rcases eq_or_ne i np with rfl | hne
    · rw [update_self] at hdst
      cases hdst
    · rw [update_of_ne hne] at hsame
      exact absurd rfl hsame

theorem level_of_creates (hstep : step a s = some t) (h : Creates ⟨s, a, t⟩ i) :
    (t.proc i).level = 0 := by
  obtain ⟨c, q, rfl, -, rfl⟩ := creates_inv hstep h
  refine (setProc_level (by rfl) i).trans ?_
  rw [bumpPid_proc, setProc_proc, update_self]
  rfl

theorem timeticks_of_creates (hstep : step a s = some t) (h : Creates ⟨s, a, t⟩ i) (l : ℤ)
    (hl : 0 ≤ l) (hl' : l < nlayer) : (t.proc i).timeticks l = 0 := by
  obtain ⟨c, q, rfl, -, rfl⟩ := creates_inv hstep h
  refine (congrFun (setProc_timeticks (by rfl) i) l).trans ?_
  rw [bumpPid_proc, setProc_proc, update_self]
  exact if_pos ⟨hl, hl'⟩

theorem tickMove (hstep : step a s = some t) (i : Slot) : TickMove i s a t := by
  -- the starvation check moves a level and dispatches nobody; the other moves are in `slotMove`
  by_cases ha : ∃ c, a = .boost c
  · obtain ⟨c, rfl⟩ := ha
    have hstate := state_of_boost hstep i
    have hdispatch : ¬Dispatches ⟨s, .boost c, t⟩ i := by
      rintro ⟨hsrc, hdst⟩
      have hrun := hsrc.symm.trans (hstate.symm.trans hdst)
      cases hrun
    have hcreate : ¬Creates ⟨s, .boost c, t⟩ i := by
      rintro ⟨hsrc, hdst⟩
      have hembryo := hsrc.symm.trans (hstate.symm.trans hdst)
      cases hembryo
    have hchecked := checked hstep i
    by_cases hmoved : (s.proc i).state = .runnable ∧ Starved i s
    · have hlevel := level_of_checked hchecked
      rw [if_pos hmoved] at hlevel
      refine .promote hmoved.2.1 hlevel ?_ hcreate hdispatch
      have hrun : ¬(entry i s).proc.state ≠ .runnable := not_not.mpr hmoved.1
      have hstarved : (entry i s).Starved := hmoved.2
      rw [hchecked.timeticks, Entry.check, if_neg hrun, Entry.boosted, if_pos hstarved]
      rfl
    · have hlevel := level_of_checked hchecked
      rw [if_neg hmoved] at hlevel
      refine .same hlevel ?_ hdispatch
      rw [hchecked.timeticks, Entry.check]
      split
      · rfl
      · next hrun =>
        have hstarved : ¬(entry i s).Starved := fun h ↦ hmoved ⟨not_not.mp hrun, h⟩
        rw [Entry.boosted, if_neg hstarved]
        rfl
  · cases (slotMove hstep (fun c hc ↦ ha ⟨c, hc⟩) i).1 with
    | same hlevel hticks hdispatch => exact .same hlevel hticks hdispatch
    | dispatch hp hdispatch => exact .dispatch hp hdispatch
    | create hcreate hlevel hdispatch =>
      exact .create hcreate hlevel (timeticks_of_creates hstep hcreate) hdispatch

/-! ## The ticks above the lowest level -/

theorem mlpqTimeticks_pos {l : ℤ} (hl : 0 ≤ l) (hl' : l < nlayer) : 0 < mlpqTimeticks l := by
  rw [mlpqTimeticks]
  simp only [nlayer] at hl'
  split_ifs <;> omega

theorem mlpqTimeticks_le (l : ℤ) : mlpqTimeticks l ≤ 20 := by
  rw [mlpqTimeticks]
  split_ifs <;> decide

theorem boot_timeticks (i : Slot) (l : ℤ) : ((boot ncpu).proc i).timeticks l = 0 := by
  obtain ⟨_, _, hp⟩ := boot_proc ncpu i
  rw [hp]
  rfl

/-- Above the lowest level the ticks do not pass two slices: the second is used up only on the way
down, and the way up starts again with one. So they do not wrap there. -/
def Small (i : Slot) (s : Kernel ncpu) : Prop :=
  ∀ l : ℤ, 0 ≤ l → l < nlayer - 1 → 0 ≤ (s.proc i).timeticks l ∧
    (s.proc i).timeticks l ≤ 2 * mlpqTimeticks l ∧
      ((s.proc i).level ≤ l → (s.proc i).timeticks l < 2 * mlpqTimeticks l)

theorem Small.toInt32_succ (h : Small i s)
    (hlevel : 0 ≤ (s.proc i).level ∧ (s.proc i).level < nlayer - 1) :
    toInt32 ((s.proc i).timeticks (s.proc i).level + 1)
      = (s.proc i).timeticks (s.proc i).level + 1 := by
  obtain ⟨hpos, hle, -⟩ := h _ hlevel.1 hlevel.2
  have hslice := mlpqTimeticks_le (s.proc i).level
  exact toInt32_of_range (by omega) (by omega)

theorem Small.step (h : Small i s) (hstep : step a s = some t) : Small i t := by
  intro l hl hl'
  have hslice := mlpqTimeticks_pos hl (by omega)
  have hold := h l hl hl'
  cases tickMove hstep i with
  | same hlevel hticks => rwa [hlevel, hticks]
  | dispatch hp =>
    rw [hp, Proc.charged]
    simp only
    by_cases hown : l = (s.proc i).level
    · subst hown
      rw [update_self, h.toInt32_succ ⟨hl, hl'⟩]
      obtain ⟨hpos, -, hlt⟩ := hold
      have hlt' := hlt le_rfl
      refine ⟨by omega, by omega, fun hstay ↦ ?_⟩
      -- a slice that is used up leads down
      split_ifs at hstay with hused
      · omega
      · refine lt_of_le_of_ne (by omega) fun htwo ↦ hused ⟨?_, by omega⟩
        rw [htwo, Int.mul_emod_left]
    · rw [update_of_ne hown]
      refine ⟨hold.1, hold.2.1, fun hle ↦ hold.2.2 ?_⟩
      split_ifs at hle <;> omega
  | create _ _ hticks =>
    rw [hticks l hl (by omega)]
    omega
  | promote hpos hlevel hticks =>
    rw [hlevel, hticks]
    by_cases hown : l = (s.proc i).level - 1
    · subst hown
      rw [update_self]
      omega
    · rw [update_of_ne hown]
      exact ⟨hold.1, hold.2.1, fun hle ↦ hold.2.2 (by omega)⟩

theorem Small.of_reachable (h : Reachable s) (i : Slot) : Small i s := by
  refine h.invariant (P := Small i) ?_ fun hu hstep _ ↦ hu.step hstep
  rintro _ rfl l hl hl'
  have hslice := mlpqTimeticks_pos hl (by omega)
  rw [boot_timeticks]
  omega

/-! ## One visit to a level -/

/-- The next tick neither reaches nor passes the end of the slice. -/
theorem mod_add_lt {c k q : ℤ} (hlt : c % q + k < q) (hne : (c + k + 1) % q ≠ 0) :
    c % q + (k + 1) < q := by
  refine lt_of_le_of_ne (by omega) fun he ↦ hne ?_
  rw [add_assoc, ← Int.emod_add_emod, he, Int.emod_self]

theorem mod_add_eq {c k q : ℤ} (hq : 0 < q) (hk : 0 ≤ k) (hlt : c % q + k < q)
    (he : (c + k + 1) % q = 0) : c % q + (k + 1) = q := by
  rw [add_assoc, ← Int.emod_add_emod] at he
  have hdvd := Int.dvd_of_emod_eq_zero he
  have hmod := Int.emod_nonneg c hq.ne'
  exact le_antisymm (by omega) (Int.le_of_dvd (by omega) hdvd)

/-- The process of the slot is neither replaced nor moved to another level. -/
def Stays (i : Slot) (tr : List (Move (Kernel ncpu) (Act ncpu))) : Prop :=
  ∀ m ∈ tr, ¬Creates m i ∧ ¬Demotes m i ∧ ¬Promotes m i

theorem level_of_stays {tr : List (Move (Kernel ncpu) (Act ncpu))} (h : Run step s tr t)
    (hstays : Stays i tr) : (t.proc i).level = (s.proc i).level := by
  induction h with
  | nil => rfl
  | @snoc u v tr a hrun hstep ih =>
    obtain ⟨hcreate, hdemote, hpromote⟩ := hstays ⟨u, a, v⟩ (by simp)
    have hu := ih fun m hm ↦ hstays m (List.mem_append_left _ hm)
    cases tickMove hstep i with
    | same hl => rw [hl, hu]
    | dispatch hp =>
      rw [hp, Proc.charged]
      -- a dispatch that used the slice up would have been a demotion
      refine (if_neg fun hcond ↦ hdemote ?_).trans hu
      rw [Demotes, hp, Proc.charged]
      exact if_pos hcond
    | create hc => exact absurd hc hcreate
    | promote _ hl _ hc => exact absurd ⟨hl, hc⟩ hpromote

/-- While a process stays at a level above the lowest, its ticks there count its dispatches, and
the slice is not used up. -/
theorem ticks_of_stays {tr : List (Move (Kernel ncpu) (Act ncpu))} (hs : Reachable s)
    (h : Run step s tr t) (hstays : Stays i tr)
    (hlevel : 0 ≤ (s.proc i).level ∧ (s.proc i).level < nlayer - 1) :
    (t.proc i).timeticks (s.proc i).level
        = (s.proc i).timeticks (s.proc i).level + dispatches i tr ∧
      (s.proc i).timeticks (s.proc i).level % mlpqTimeticks (s.proc i).level + dispatches i tr
        < mlpqTimeticks (s.proc i).level := by
  induction h with
  | nil =>
    have hslice := mlpqTimeticks_pos hlevel.1 (by omega)
    refine ⟨(add_zero _).symm, ?_⟩
    rw [dispatches, List.countP_nil, Nat.cast_zero, add_zero]
    exact Int.emod_lt_of_pos _ (by omega)
  | @snoc u v tr a hrun hstep ih =>
    have hstays' : Stays i tr := fun m hm ↦ hstays m (List.mem_append_left _ hm)
    have hu := level_of_stays hrun hstays'
    obtain ⟨hticks, hlt⟩ := ih hstays'
    obtain ⟨hcreate, hdemote, hpromote⟩ := hstays ⟨u, a, v⟩ (by simp)
    rw [dispatches_snoc]
    cases tickMove hstep i with
    | same hl ht hd =>
      rw [if_neg hd, add_zero, ht]
      exact ⟨hticks, hlt⟩
    | dispatch hp hd =>
      have hsucc := (Small.of_reachable (hs.run hrun fun _ _ ↦ trivial) i).toInt32_succ
        (by rwa [hu])
      -- the slice is not used up, or the move would be a demotion
      have hne : toInt32 ((u.proc i).timeticks (u.proc i).level + 1)
          % mlpqTimeticks (u.proc i).level ≠ 0 := by
        intro hzero
        refine hdemote ?_
        rw [Demotes, hp, Proc.charged]
        exact if_pos ⟨hzero, by rw [hu]; exact hlevel.2.ne⟩
      rw [hu] at hsucc hne
      rw [if_pos hd, Nat.cast_add, Nat.cast_one]
      refine ⟨?_, ?_⟩
      · rw [hp, Proc.charged, hu]
        simp only
        rw [update_self, hsucc, hticks, add_assoc]
      · rw [hsucc, hticks] at hne
        exact mod_add_lt hlt hne
    | create hc => exact absurd hc hcreate
    | promote _ hl _ hc => exact absurd ⟨hl, hc⟩ hpromote

/-- A demotion is a dispatch that uses up the slice of a level above the lowest. -/
theorem demotes_inv (hstep : step a s = some t) (h : Demotes ⟨s, a, t⟩ i)
    (hlevel : 0 ≤ (s.proc i).level) :
    Dispatches ⟨s, a, t⟩ i ∧ t.proc i = (s.proc i).charged ∧
      toInt32 ((s.proc i).timeticks (s.proc i).level + 1) % mlpqTimeticks (s.proc i).level = 0 ∧
      (s.proc i).level ≠ nlayer - 1 := by
  replace h : (t.proc i).level = (s.proc i).level + 1 := h
  cases tickMove hstep i with
  | same hl => omega
  | dispatch hp hd =>
    refine ⟨hd, hp, ?_⟩
    by_contra hcond
    rw [hp, Proc.charged] at h
    simp only at h
    rw [if_neg hcond] at h
    omega
  | create _ hl => omega
  | promote _ hl => omega

/-- A visit of the process of a slot to a level, in a run from boot: the `past` ends with the entry
into the level, by creation or from a neighbouring level, and the visit ends with the demotion
`d`. -/
structure Visit (i : Slot) (past mid : List (Move (Kernel ncpu) (Act ncpu)))
    (d : Move (Kernel ncpu) (Act ncpu)) (s : Kernel ncpu) : Prop where
  history : Run step (boot ncpu) past s
  enters : past = [] ∨ ∃ pre m, past = pre ++ [m] ∧ (Creates m i ∨ Demotes m i ∨ Promotes m i)
  run : Run step s mid d.src
  stays : Stays i mid
  last : step d.act d.src = some d.dst
  demotes : Demotes d i

variable {past mid : List (Move (Kernel ncpu) (Act ncpu))} {d : Move (Kernel ncpu) (Act ncpu)}

theorem Visit.reachable (h : Visit i past mid d s) : Reachable s :=
  ⟨_, _, rfl, h.history, fun _ _ ↦ trivial⟩

/-- A visit is as long as what is left of the slice on entry. -/
theorem Visit.dispatches_eq (h : Visit i past mid d s) :
    (s.proc i).timeticks (s.proc i).level % mlpqTimeticks (s.proc i).level
      + dispatches i (mid ++ [d]) = mlpqTimeticks (s.proc i).level := by
  have hs := Shape.of_reachable h.reachable
  have hd : Reachable d.src := h.reachable.run h.run fun _ _ ↦ trivial
  obtain ⟨hdispatch, -, hzero, hne⟩ :=
    demotes_inv h.last h.demotes ((Shape.of_reachable hd).level_mem i).1
  have hsrc := level_of_stays h.run h.stays
  rw [hsrc] at hne
  have hmem := hs.level_mem i
  obtain ⟨hticks, hlt⟩ := ticks_of_stays h.reachable h.run h.stays ⟨hmem.1, by omega⟩
  rw [(Small.of_reachable hd i).toInt32_succ ⟨by rw [hsrc]; exact hmem.1, by rw [hsrc]; omega⟩,
    hsrc, hticks] at hzero
  rw [dispatches_snoc, if_pos hdispatch, Nat.cast_add, Nat.cast_one]
  have hslice := mlpqTimeticks_pos hmem.1 hmem.2
  exact mod_add_eq (by omega) (Int.natCast_nonneg _) hlt hzero

/-! ## Residues -/

/-- The move promotes the process of the slot out of a level above the lowest in mid-slice. -/
def CutsShort (m : Move (Kernel ncpu) (Act ncpu)) (i : Slot) : Prop :=
  Promotes m i ∧ (m.src.proc i).level < nlayer - 1 ∧
    (m.src.proc i).timeticks (m.src.proc i).level % mlpqTimeticks (m.src.proc i).level ≠ 0

/-- No slice of a level above the lowest is half used, except at the present level. -/
def NoResidue (i : Slot) (s : Kernel ncpu) : Prop :=
  ∀ l : ℤ, 0 ≤ l → l < nlayer - 1 → l ≠ (s.proc i).level →
    (s.proc i).timeticks l % mlpqTimeticks l = 0

theorem NoResidue.step (h : NoResidue i s) (hstep : step a s = some t)
    (hcut : ¬CutsShort ⟨s, a, t⟩ i) : NoResidue i t := by
  intro l hl hl' hne
  cases tickMove hstep i with
  | same hlevel hticks =>
    rw [hticks]
    exact h l hl hl' (by rwa [hlevel] at hne)
  | dispatch hp =>
    rw [hp, Proc.charged] at hne ⊢
    simp only at hne ⊢
    by_cases hown : l = (s.proc i).level
    · subst hown
      rw [update_self]
      -- a dispatch leaves the level only when it has used the slice up
      by_contra hres
      exact hne (if_neg fun hcond ↦ hres hcond.1).symm
    · rw [update_of_ne hown]
      exact h l hl hl' hown
  | create _ _ hticks => rw [hticks l hl (by omega), Int.zero_emod]
  | promote hpos hlevel hticks hcreate =>
    rw [hlevel] at hne
    rw [hticks, update_of_ne hne]
    by_cases hown : l = (s.proc i).level
    · subst hown
      by_contra hres
      exact hcut ⟨⟨hlevel, hcreate⟩, hl', hres⟩
    · exact h l hl hl' hown

theorem noResidue_boot (i : Slot) : NoResidue i (boot ncpu) := by
  intro l _ _ _
  rw [boot_timeticks, Int.zero_emod]

theorem noResidue_of_run (h : Run step (boot ncpu) past s) (hcut : ∀ m ∈ past, ¬CutsShort m i) :
    NoResidue i s :=
  h.invariant (fun hu hstep hm ↦ hu.step hstep hm) hcut (noResidue_boot i)

/-- On entry into a level the slice is new, unless an earlier visit was cut short. -/
theorem Visit.fresh (h : Visit i past mid d s) (hcut : ∀ m ∈ past, ¬CutsShort m i) :
    (s.proc i).timeticks (s.proc i).level % mlpqTimeticks (s.proc i).level = 0 := by
  have hhistory := h.history
  rcases h.enters with rfl | ⟨pre, m, rfl, henter⟩
  · obtain rfl := hhistory.nil_inv
    rw [boot_timeticks, Int.zero_emod]
  obtain ⟨hpre, hstep, rfl⟩ := hhistory.snoc_inv
  have hsrc : Reachable m.src := ⟨_, _, rfl, hpre, fun _ _ ↦ trivial⟩
  have hmem := (Shape.of_reachable hsrc).level_mem i
  have hmem' := (Shape.of_reachable h.reachable).level_mem i
  have hres := noResidue_of_run hpre fun m' hm' ↦ hcut m' (List.mem_append_left _ hm')
  have hmid := demotes_inv h.last h.demotes
    ((Shape.of_reachable (h.reachable.run h.run fun _ _ ↦ trivial)).level_mem i).1
  have hlow := hmid.2.2.2
  rw [level_of_stays h.run h.stays] at hlow
  rcases henter with hcreate | hdemote | hpromote
  · rw [timeticks_of_creates hstep hcreate _ hmem'.1 hmem'.2, Int.zero_emod]
  · obtain ⟨-, hp, -, hne⟩ := demotes_inv hstep hdemote hmem.1
    have hlevel : (m.dst.proc i).level = (m.src.proc i).level + 1 := hdemote
    -- the counter of the level below has not been touched since an earlier visit
    have hother : (m.dst.proc i).level ≠ (m.src.proc i).level := by omega
    rw [← hres _ hmem'.1 (by omega) hother]
    congr 1
    rw [hlevel, hp, Proc.charged]
    exact update_of_ne (by omega) _ _
  -- a promotion sets the counter to a full slice
  · obtain ⟨hlevel, hcreate⟩ := hpromote
    have hm : TickMove i m.src m.act m.dst := tickMove hstep i
    cases hm with
    | same hl => omega
    | dispatch hp =>
      rw [hp, Proc.charged] at hlevel
      simp only at hlevel
      split at hlevel <;> omega
    | create hc => exact absurd hc hcreate
    | promote _ hl hticks => rw [hl, hticks, update_self, Int.emod_self]

/-- A run of one process at one level is a part of one visit. -/
theorem stays_of_level {tr : List (Move (Kernel ncpu) (Act ncpu))} {l : ℤ} (h : Run step s tr t)
    (hsame : ∀ m ∈ tr, ¬Creates m i) (hs : (s.proc i).level = l)
    (htr : ∀ m ∈ tr, (m.dst.proc i).level = l) : Stays i tr := by
  induction h with
  | nil => simp [Stays]
  | @snoc u v tr a hrun hstep ih =>
    have hstays := ih (fun m hm ↦ hsame m (List.mem_append_left _ hm))
      fun m hm ↦ htr m (List.mem_append_left _ hm)
    have hu := (level_of_stays hrun hstays).trans hs
    have hv : (v.proc i).level = l := htr ⟨u, a, v⟩ (by simp)
    intro m hm
    rcases List.mem_append.mp hm with hm | hm
    · exact hstays m hm
    rw [List.mem_singleton.mp hm]
    refine ⟨hsame _ (by simp), fun hd ↦ ?_, fun hp ↦ ?_⟩
    · have hlevel : (v.proc i).level = (u.proc i).level + 1 := hd
      omega
    · have hlevel : (v.proc i).level = (u.proc i).level - 1 := hp.1
      omega

/-- **The length of a slice.** In every visit of a process to a level, from the entry to the
demotion, it is dispatched exactly as often as the level's slice says if and only if its counter
for the level is a multiple of the slice on entry. That is so unless an earlier promotion took a
process of the slot out of a level in mid-slice. -/
theorem slice_length_iff (ncpu : ℕ) (past mid : List (Move (Kernel ncpu) (Act ncpu)))
    (d : Move (Kernel ncpu) (Act ncpu)) (s : Kernel ncpu) (i : Slot)
    (h : Visit i past mid d s) :
    (dispatches i (mid ++ [d]) = mlpqTimeticks (s.proc i).level ↔
      (s.proc i).timeticks (s.proc i).level % mlpqTimeticks (s.proc i).level = 0) ∧
    ((∀ m ∈ past, ¬CutsShort m i) →
      (s.proc i).timeticks (s.proc i).level % mlpqTimeticks (s.proc i).level = 0) := by
  have hlength := h.dispatches_eq
  exact ⟨by omega, h.fresh⟩

section Example

def roundTable (n : ℕ) : List (Act 1) :=
  [.timer 0, .yield 0] ++ List.replicate n (.scan 0) ++ [.resume 0]

def boostTick : List (Act 1) := [.timer 0, .boost 0, .yield 0, .scan 0, .resume 0]

/-- The running process goes to sleep and the next slot is dispatched. -/
def handOver : List (Act 1) := [.sleep 0 (.other 0), .scan 0, .resume 0]

/-- The next `n` children run for five ticks each. -/
def children (n : ℕ) : List (Act 1) := (List.replicate n (handOver ++ ticks 4)).flatten

/-- The first process, moved to level 1, has run there for two ticks and forked 49 children. They
keep level 0 busy until it has been promoted, and at level 0 it runs for another slice but for one
tick. -/
def cutShort : List (Act 1) :=
  [.acquire 0, .scan 0, .resume 0] ++ ticks 4 ++ roundTable 65 ++ ticks 1 ++ forks 49 ++
    roundTable 3 ++ ticks 4 ++ children 22 ++ handOver ++ boostTick ++ ticks 3 ++ children 24 ++
    handOver ++ boostTick ++ [.sleep 0 (.other 0)] ++ List.replicate 18 (.scan 0) ++
    [.resume 0] ++ ticks 3 ++ [.timer 0, .yield 0]

/-- The second visit of the first process to level 1. -/
def shortVisit : List (Act 1) := [.resume 0] ++ roundTable 65 ++ ticks 1 ++ [.timer 0, .yield 0]

theorem shortVisit_replay : ((replay step cutShort (boot 1)).bind fun u ↦
    (step (.scan 0) u).bind fun s ↦
      (replayIn step (fun s ↦ (s.proc initproc).level = 1) shortVisit s).bind fun v ↦
        (step (.scan 0) v).map fun t ↦ ((u.proc initproc).level, (s.proc initproc).level,
          (s.proc initproc).timeticks 1, (v.proc initproc).level, (t.proc initproc).level))
    = some (0, 1, 2, 1, 2) := by
  decide +kernel

/-- The first process comes back to level 1 with two ticks of a slice already used. -/
theorem exists_shortVisit : ∃ (past mid : List (Move (Kernel 1) (Act 1)))
    (d : Move (Kernel 1) (Act 1)) (s : Kernel 1), Visit initproc past mid d s ∧
      (s.proc initproc).level = 1 ∧ (s.proc initproc).timeticks 1 = 2 := by
  obtain ⟨u, hu, hrest⟩ := Option.bind_eq_some_iff.mp shortVisit_replay
  obtain ⟨s, hs, hrest⟩ := Option.bind_eq_some_iff.mp hrest
  obtain ⟨v, hv, hrest⟩ := Option.bind_eq_some_iff.mp hrest
  obtain ⟨t, ht, hval⟩ := Option.map_eq_some_iff.mp hrest
  obtain ⟨hlevel_u, hlevel_s, hticks, hlevel_v, hlevel_t⟩ : (u.proc initproc).level = 0 ∧
      (s.proc initproc).level = 1 ∧ (s.proc initproc).timeticks 1 = 2 ∧
        (v.proc initproc).level = 1 ∧ (t.proc initproc).level = 2 := by
    simpa using hval
  obtain ⟨pre, hpre, -⟩ := exists_run_of_replay hu
  obtain ⟨mid, hmid, -, hok⟩ := exists_run_of_replayIn hv
  refine ⟨pre ++ [⟨u, .scan 0, s⟩], mid, ⟨v, .scan 0, t⟩, s, ⟨hpre.snoc hs, .inr ⟨pre, _, rfl,
    .inr (.inl ?_)⟩, hmid, ?_, ht, ?_⟩, hlevel_s, hticks⟩
  · change (s.proc initproc).level = (u.proc initproc).level + 1
    rw [hlevel_s, hlevel_u, zero_add]
  · have hlevel : ∀ m ∈ mid, (m.dst.proc initproc).level = 1 := fun m hm ↦ by
      simpa using hok m hm
    -- a process that is created starts at level 0
    have hsame : ∀ m ∈ mid, ¬Creates m initproc := fun m hm hc ↦ by
      have hzero := level_of_creates (hmid.enabled m hm) hc
      rw [hlevel m hm] at hzero
      exact one_ne_zero hzero
    exact stays_of_level hmid hsame hlevel_s hlevel
  · change (t.proc initproc).level = (v.proc initproc).level + 1
    rw [hlevel_t, hlevel_v]
    rfl

theorem slice_length_shortVisit : ∃ (mid : List (Move (Kernel 1) (Act 1)))
    (d : Move (Kernel 1) (Act 1)) (s : Kernel 1),
    (dispatches initproc (mid ++ [d]) = mlpqTimeticks (s.proc initproc).level ↔
      (s.proc initproc).timeticks (s.proc initproc).level
        % mlpqTimeticks (s.proc initproc).level = 0) := by
  obtain ⟨past, mid, d, s, hvisit, -⟩ := exists_shortVisit
  exact ⟨mid, d, s, (slice_length_iff 1 past mid d s initproc hvisit).1⟩

/-- The second visit of the first process to level 1 lasts three dispatches. -/
theorem not_slice_length : ¬∀ (past mid : List (Move (Kernel 1) (Act 1)))
    (d : Move (Kernel 1) (Act 1)) (s : Kernel 1) (i : Slot), Visit i past mid d s →
      dispatches i (mid ++ [d]) = mlpqTimeticks (s.proc i).level := by
  intro hall
  obtain ⟨past, mid, d, s, hvisit, hlevel, hticks⟩ := exists_shortVisit
  have hfull := hall past mid d s initproc hvisit
  have hlength := hvisit.dispatches_eq
  rw [hfull, hlevel, hticks] at hlength
  simp [mlpqTimeticks] at hlength

end Example

end CS537.Mlfq
