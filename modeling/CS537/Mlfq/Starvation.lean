import CS537.Lib.Sweep
import CS537.Mlfq.Priority
import Mathlib.Data.Int.ModEq
import Mathlib.Data.List.DropRight

/-!
# The starvation boost

`check_starve_and_boost` moves a RUNNABLE process one level up when its level and its ticks are
those of the snapshot of its slot. The snapshot is taken only of RUNNABLE processes, so it is stale
for a process that was RUNNING or SLEEPING at the last check, and it outlives the process.

Since its snapshot a process has only moved down, or it has stayed at its level, and then its ticks
have grown by the number of its dispatches. They wrap, so they may come to stand where the snapshot
shows them after `2 ^ 32` dispatches.
-/

namespace CS537.Mlfq

open Function Transition Wrapping

variable {ncpu : ℕ} {s t : Kernel ncpu} {a : Act ncpu} {i : Slot}

/-! ## One check -/

/-- What the check reads and writes for one slot, apart from the counters. -/
structure Entry where
  proc : Proc
  lastLevel : ℤ
  lastTicks : ℤ → ℤ

def entry (i : Slot) (s : Kernel ncpu) : Entry := ⟨s.proc i, s.lastLevel i, s.lastTicks i⟩

def Entry.Starved (e : Entry) : Prop :=
  e.proc.level ≠ 0 ∧ e.proc.level = e.lastLevel ∧
    e.proc.timeticks e.proc.level = e.lastTicks e.proc.level

instance (e : Entry) : Decidable e.Starved := inferInstanceAs (Decidable (_ ∧ _))

/-- The process of the entry after the check. -/
def Entry.boosted (e : Entry) : Proc :=
  if e.Starved then
    { e.proc with
      level := e.proc.level - 1
      timeticks := update e.proc.timeticks (e.proc.level - 1)
        (mlpqTimeticks (e.proc.level - 1)) }
  else e.proc

/-- The entry after the check. -/
def Entry.check (e : Entry) : Entry :=
  if e.proc.state ≠ .runnable then e
  else ⟨e.boosted, e.boosted.level,
    update e.lastTicks e.boosted.level (e.boosted.timeticks e.boosted.level)⟩

theorem entry_boostOne (s : Kernel ncpu) (i : Slot) :
    entry i (boostOne s i) = (entry i s).check := by
  rw [boostOne_eq, Entry.check]
  by_cases hrun : (s.proc i).state = .runnable
  · have hrun' : (entry i s).proc.state = .runnable := hrun
    rw [if_neg (not_not.mpr hrun), if_neg (not_not.mpr hrun'), Entry.boosted]
    -- `Starved` reads the entry only
    by_cases hs : Starved i s
    · have he : (entry i s).Starved := hs
      rw [if_pos hs, if_pos he]
      simp [takeSnapshot, promote, Cumulative.promote, entry, Kernel.addLevel, Kernel.setProc]
    · have he : ¬(entry i s).Starved := hs
      rw [if_neg hs, if_neg he]
      simp [takeSnapshot, entry]
  · have hrun' : (entry i s).proc.state ≠ .runnable := hrun
    rw [if_pos hrun, if_pos hrun']

theorem entry_boostOne_of_ne (s : Kernel ncpu) (i j : Slot) (h : j ≠ i) :
    entry j (boostOne s i) = entry j s := by
  rw [boostOne_eq]
  split
  · rfl
  · split
    · simp [takeSnapshot, promote, Cumulative.promote, entry, Kernel.addLevel, Kernel.setProc, h]
    · simp [takeSnapshot, entry, h]

theorem entry_checkStarveAndBoost (s : Kernel ncpu) (i : Slot) :
    entry i (checkStarveAndBoost s) = (entry i s).check :=
  Sweep.view_foldl (fun _ ↦ Entry.check) entry_boostOne entry_boostOne_of_ne nodup_slots
    (mem_slots i) s

theorem setProc_timeticks {q : Slot} {p : Proc} (hticks : p.timeticks = (s.proc q).timeticks)
    (r : Slot) : ((s.setProc q p).proc r).timeticks = (s.proc r).timeticks := by
  rcases eq_or_ne r q with rfl | hr
  · simpa using hticks
  · simp [hr]

/-- `check_starve_and_boost` as a move, one slot at a time. -/
structure Checked (i : Slot) (s t : Kernel ncpu) : Prop where
  level : (t.proc i).level = (entry i s).check.proc.level
  timeticks : (t.proc i).timeticks = (entry i s).check.proc.timeticks
  lastLevel : t.lastLevel i = (entry i s).check.lastLevel
  lastTicks : t.lastTicks i = (entry i s).check.lastTicks

theorem checked {c : Fin ncpu} (hstep : step (.boost c) s = some t) (i : Slot) :
    Checked i s t := by
  cases trans_of_step hstep with
  | @boost c q hq ht hl =>
    have he := entry_checkStarveAndBoost s i
    have hp : (checkStarveAndBoost s).proc i = (entry i s).check.proc :=
      congrArg Entry.proc he
    have hl : (checkStarveAndBoost s).lastLevel i = (entry i s).check.lastLevel :=
      congrArg Entry.lastLevel he
    have ht : (checkStarveAndBoost s).lastTicks i = (entry i s).check.lastTicks :=
      congrArg Entry.lastTicks he
    refine ⟨?_, ?_, hl, ht⟩
    · rw [← hp]
      exact setProc_level (by rfl) i
    · rw [← hp]
      exact setProc_timeticks (by rfl) i

/-- Moved up by one level exactly when RUNNABLE and like its snapshot. -/
theorem level_of_checked (h : Checked i s t) : (t.proc i).level =
    if (s.proc i).state = .runnable ∧ Starved i s then (s.proc i).level - 1
    else (s.proc i).level := by
  rw [h.level, Entry.check]
  by_cases hrun : (s.proc i).state = .runnable
  · have hrun' : (entry i s).proc.state = .runnable := hrun
    rw [if_neg (not_not.mpr hrun'), Entry.boosted]
    by_cases hs : Starved i s
    · have he : (entry i s).Starved := hs
      rw [if_pos he, if_pos ⟨hrun, hs⟩]
      rfl
    · have he : ¬(entry i s).Starved := hs
      rw [if_neg he, if_neg fun h ↦ hs h.2]
      rfl
  · have hrun' : (entry i s).proc.state ≠ .runnable := hrun
    rw [if_pos hrun', if_neg fun h ↦ hrun h.1]
    rfl

/-- After the check of a RUNNABLE process its snapshot shows it as it is. -/
theorem snapshot_of_checked (h : Checked i s t) (hrun : (s.proc i).state = .runnable) :
    t.lastLevel i = (t.proc i).level ∧
      t.lastTicks i (t.proc i).level = (t.proc i).timeticks (t.proc i).level := by
  have hrun' : (entry i s).proc.state = .runnable := hrun
  rw [h.lastLevel, h.lastTicks, h.timeticks, h.level, Entry.check, if_neg (not_not.mpr hrun')]
  exact ⟨rfl, update_self _ _ _⟩

/-- The check leaves everything else alone. -/
theorem unchanged_of_checked (h : Checked i s t) (hrun : (s.proc i).state ≠ .runnable) :
    (t.proc i).level = (s.proc i).level ∧ (t.proc i).timeticks = (s.proc i).timeticks ∧
      t.lastLevel i = s.lastLevel i ∧ t.lastTicks i = s.lastTicks i := by
  have hrun' : (entry i s).proc.state ≠ .runnable := hrun
  rw [h.level, h.timeticks, h.lastLevel, h.lastTicks, Entry.check, if_pos hrun']
  exact ⟨rfl, rfl, rfl, rfl⟩

/-! ## What the other moves do to a slot -/

/-- The move allocates the slot `i` to a new process. -/
def Creates (m : Move (Kernel ncpu) (Act ncpu)) (i : Slot) : Prop :=
  (m.src.proc i).state = .unused ∧ (m.dst.proc i).state = .embryo

instance (m : Move (Kernel ncpu) (Act ncpu)) (i : Slot) : Decidable (Creates m i) :=
  inferInstanceAs (Decidable (_ ∧ _))

/-- A move other than a check, seen from one slot. -/
inductive SlotMove (i : Slot) (s : Kernel ncpu) (a : Act ncpu) (t : Kernel ncpu) : Prop
  | same (hlevel : (t.proc i).level = (s.proc i).level)
    (hticks : (t.proc i).timeticks = (s.proc i).timeticks)
    (hdispatch : ¬Dispatches ⟨s, a, t⟩ i)
  | dispatch (hp : t.proc i = (s.proc i).charged) (hdispatch : Dispatches ⟨s, a, t⟩ i)
  | create (hcreate : Creates ⟨s, a, t⟩ i) (hlevel : (t.proc i).level = 0)
    (hdispatch : ¬Dispatches ⟨s, a, t⟩ i)

theorem dispatch_snapshot (c : Fin ncpu) (q : Slot) (ii : ℤ) :
    (dispatch c q ii s).lastLevel = s.lastLevel ∧ (dispatch c q ii s).lastTicks = s.lastTicks := by
  rw [dispatch, Cumulative.dispatch]
  simp only
  split
  · exact ⟨rfl, rfl⟩
  · split <;> exact ⟨rfl, rfl⟩

theorem slotMove (hstep : step a s = some t) (ha : ∀ c, a ≠ .boost c) (i : Slot) :
    SlotMove i s a t ∧ t.lastLevel = s.lastLevel ∧ t.lastTicks = s.lastTicks := by
  rcases quiet_or_loud hstep with hquiet | hloud
  · refine ⟨.same (hquiet.slot i).level (hquiet.slot i).timeticks ?_, hquiet.lastLevel,
      hquiet.lastTicks⟩
    rintro ⟨hsrc, hdst⟩
    have hrun := (hquiet.slot i).running hdst
    rw [hsrc] at hrun
    simp at hrun
  · cases hloud with
    | @dispatch c ii p r hc hr =>
      refine ⟨?_, (dispatch_snapshot c r ii).1, (dispatch_snapshot c r ii).2⟩
      rcases eq_or_ne i r with rfl | hne
      · have hp : (dispatch c i ii s).proc i = (s.proc i).charged := by
          rw [dispatch_proc, update_self]
        exact .dispatch hp ⟨(iterate_dispatch hr).1, by rw [hp]; rfl⟩
      · have hp : (dispatch c r ii s).proc i = s.proc i := by
          rw [dispatch_proc, update_of_ne hne]
        refine .same (by rw [hp]) (by rw [hp]) fun hrun ↦ ?_
        obtain ⟨hsrc, hdst⟩ := hrun
        rw [hp, hsrc] at hdst
        simp at hdst
    | @create c r np hr hnp =>
      refine ⟨?_, rfl, rfl⟩
      have hunused : (s.proc np).state = .unused := by simpa using List.find?_some hnp
      have hstate := setPos_state (s := (s.setProc np ((s.proc np).embryo s.nextpid)).bumpPid) r i
        (.copy np)
      have hlevel := setPos_level (s := (s.setProc np ((s.proc np).embryo s.nextpid)).bumpPid) r i
        (.copy np)
      rw [bumpPid_proc, setProc_proc] at hstate hlevel
      rcases eq_or_ne i np with rfl | hne
      · rw [update_self] at hstate hlevel
        refine .create ⟨hunused, hstate⟩ hlevel fun hrun ↦ ?_
        have hembryo := hstate.symm.trans hrun.2
        simp [Proc.embryo] at hembryo
      · rw [update_of_ne hne] at hstate hlevel
        refine .same hlevel ?_ fun hyield ↦ ?_
        · refine (setProc_timeticks (by rfl) i).trans ?_
          rw [bumpPid_proc, setProc_proc, update_of_ne hne]
        · have hrun := hstate.symm.trans hyield.2
          rw [hyield.1] at hrun
          simp at hrun
    | boost => exact absurd rfl (ha _)
    | @publish c r np hr =>
      refine ⟨?_, rfl, rfl⟩
      have hstate := setPos_state (s := s.setProc np
        { s.proc np with parent := some r, state := .runnable }) r i (.count np)
      refine .same ?_ ?_ fun hyield ↦ ?_
      · rw [forkPublish, setPos_level]
        exact setProc_level (by rfl) i
      · exact (setProc_timeticks (by rfl) i).trans (setProc_timeticks (by rfl) i)
      · have hrun := hstate.symm.trans hyield.2
        rw [setProc_proc] at hrun
        rcases eq_or_ne i np with rfl | hne
        · simp at hrun
        · rw [update_of_ne hne, hyield.1] at hrun
          simp at hrun

/-! ## Moving forward -/

instance (m : Move (Kernel ncpu) (Act ncpu)) : DecidablePred (Dispatches m) := fun _ ↦
  inferInstanceAs (Decidable (_ ∧ _))

/-- The number of dispatches of the process of the slot. -/
def dispatches (i : Slot) (tr : List (Move (Kernel ncpu) (Act ncpu))) : ℕ :=
  tr.countP fun m ↦ Dispatches m i

theorem dispatches_snoc (tr : List (Move (Kernel ncpu) (Act ncpu)))
    (m : Move (Kernel ncpu) (Act ncpu)) :
    dispatches i (tr ++ [m]) = dispatches i tr + if Dispatches m i then 1 else 0 := by
  rw [dispatches, List.countP_append, List.countP_singleton, dispatches]
  simp

theorem modEq_toInt32 (n : ℤ) : toInt32 n ≡ n [ZMOD 2 ^ 32] := Int.bmod_emod

/-- Since it stood at level `l` with `n` ticks, the process has moved down, or it has been
dispatched `k` times. -/
def Further (l n : ℤ) (k : ℕ) (p : Proc) : Prop :=
  l < p.level ∨ l = p.level ∧ p.timeticks p.level ≡ n + k [ZMOD 2 ^ 32]

variable {l n : ℤ} {k : ℕ} {p p' : Proc}

theorem Further.congr (h : Further l n k p) (hlevel : p'.level = p.level)
    (hticks : p'.timeticks = p.timeticks) : Further l n k p' := by
  rwa [Further, hlevel, hticks]

/-- A dispatch charges a tick to the level, and never moves a process up. -/
theorem Further.charged (h : Further l n k p) : Further l n (k + 1) p.charged := by
  rw [Further, Proc.charged]
  simp only
  split
  · left
    rcases h with h | ⟨h, -⟩ <;> omega
  · rcases h with h | ⟨hlevel, hticks⟩
    · exact .inl h
    · refine .inr ⟨hlevel, ?_⟩
      rw [update_self, Nat.cast_add, Nat.cast_one, ← add_assoc]
      exact (modEq_toInt32 _).trans (hticks.add_right 1)

theorem Further.step (h : Further l n k (s.proc i)) (hm : SlotMove i s a t)
    (hcreate : ¬Creates ⟨s, a, t⟩ i) :
    Further l n (k + if Dispatches ⟨s, a, t⟩ i then 1 else 0) (t.proc i) := by
  cases hm with
  | same hlevel hticks hnot =>
    rw [if_neg hnot]
    exact h.congr hlevel hticks
  | dispatch hp hd =>
    rw [if_pos hd, hp]
    exact h.charged
  | create hc => exact absurd hc hcreate

/-- The move is a check that takes the snapshot of the slot `i`. -/
def Refreshes (m : Move (Kernel ncpu) (Act ncpu)) (i : Slot) : Prop :=
  (∃ c, m.act = .boost c) ∧ (m.src.proc i).state = .runnable

instance (m : Move (Kernel ncpu) (Act ncpu)) : DecidablePred (Refreshes m) := fun _ ↦
  inferInstanceAs (Decidable (_ ∧ _))

/-- The moves since the last snapshot of the slot. -/
def sinceSnapshot (i : Slot) (tr : List (Move (Kernel ncpu) (Act ncpu))) :
    List (Move (Kernel ncpu) (Act ncpu)) :=
  tr.rtakeWhile fun m ↦ ¬Refreshes m i

theorem sinceSnapshot_of_refreshes {tr : List (Move (Kernel ncpu) (Act ncpu))}
    {m : Move (Kernel ncpu) (Act ncpu)} (h : Refreshes m i) : sinceSnapshot i (tr ++ [m]) = [] := by
  rw [sinceSnapshot, List.rtakeWhile_concat]
  simp [h]

theorem sinceSnapshot_snoc {tr : List (Move (Kernel ncpu) (Act ncpu))}
    {m : Move (Kernel ncpu) (Act ncpu)} (h : ¬Refreshes m i) :
    sinceSnapshot i (tr ++ [m]) = sinceSnapshot i tr ++ [m] := by
  rw [sinceSnapshot, List.rtakeWhile_concat]
  simp [h, sinceSnapshot]

theorem sinceSnapshot_append {tr tr' : List (Move (Kernel ncpu) (Act ncpu))}
    (h : ∀ m ∈ tr', ¬Refreshes m i) : sinceSnapshot i (tr ++ tr') = sinceSnapshot i tr ++ tr' := by
  induction tr' using List.reverseRecOn with
  | nil => rw [List.append_nil, List.append_nil]
  | append_singleton tr' m ih =>
    rw [List.forall_mem_append, List.forall_mem_singleton] at h
    rw [← List.append_assoc, sinceSnapshot_snoc h.2, ih h.1, List.append_assoc]

/-- Too few dispatches since the last snapshot for the ticks to come round to it. -/
def Recent (i : Slot) (tr : List (Move (Kernel ncpu) (Act ncpu))) : Prop :=
  dispatches i (sinceSnapshot i tr) < 2 ^ 32

/-- The snapshot of the slot does not stem from an earlier process: after the last creation in
the slot a check has found it RUNNABLE. -/
def OwnSnapshot (tr : List (Move (Kernel ncpu) (Act ncpu))) (i : Slot) : Prop :=
  ∀ pre m post, tr = pre ++ m :: post → Creates m i → ∃ m' ∈ post, Refreshes m' i

theorem OwnSnapshot.of_append {tr tr' : List (Move (Kernel ncpu) (Act ncpu))}
    (h : OwnSnapshot (tr ++ tr') i) (htr' : ∀ m ∈ tr', ¬Refreshes m i) :
    OwnSnapshot tr i ∧ ∀ m ∈ tr', ¬Creates m i := by
  constructor
  · rintro pre m post rfl hm
    obtain ⟨m', hm', hr⟩ := h pre m (post ++ tr') (by simp) hm
    rcases List.mem_append.mp hm' with hm' | hm'
    · exact ⟨m', hm', hr⟩
    · exact absurd hr (htr' m' hm')
  -- a creation among the last moves would need a check behind it
  · intro m hm hc
    obtain ⟨pre, post, rfl⟩ := List.append_of_mem hm
    obtain ⟨m', hm', hr⟩ := h (tr ++ pre) m post (by simp) hc
    exact htr' m' (by simp [hm']) hr

/-- What the process of a slot has done since its own snapshot. -/
def Tracks (i : Slot) (tr : List (Move (Kernel ncpu) (Act ncpu))) (s : Kernel ncpu) : Prop :=
  Further (s.lastLevel i) (s.lastTicks i (s.lastLevel i)) (dispatches i (sinceSnapshot i tr))
    (s.proc i)

theorem tracks_of_run {tr : List (Move (Kernel ncpu) (Act ncpu))} (h : Run step (boot ncpu) tr s)
    (hown : OwnSnapshot tr i) : Tracks i tr s := by
  generalize hb : boot ncpu = b at h
  induction h with
  | nil =>
    subst hb
    obtain ⟨_, _, hp⟩ := boot_proc ncpu i
    rw [Tracks, hp]
    exact .inr ⟨rfl, Int.ModEq.refl _⟩
  | @snoc u v tr a hrun hstep ih =>
    by_cases hr : Refreshes ⟨u, a, v⟩ i
    -- a snapshot of its own
    · rw [Tracks, sinceSnapshot_of_refreshes hr]
      obtain ⟨⟨c, hc⟩, hrunnable⟩ := hr
      obtain rfl : a = .boost c := hc
      obtain ⟨hlevel, hticks⟩ := snapshot_of_checked (checked hstep i) hrunnable
      refine .inr ⟨hlevel, ?_⟩
      rw [hlevel, hticks]
      exact Int.ModEq.symm (by simp [dispatches])
    -- the snapshot stays, and the dispatches since then are counted
    · obtain ⟨hown', hnew⟩ := hown.of_append (by simpa using hr)
      have htracks := ih hown'
      rw [Tracks, sinceSnapshot_snoc hr, dispatches_snoc]
      by_cases ha : ∃ c, a = .boost c
      · obtain ⟨c, rfl⟩ := ha
        have hnot : (u.proc i).state ≠ .runnable := fun hrunnable ↦ hr ⟨⟨c, rfl⟩, hrunnable⟩
        obtain ⟨hlevel, hticks, hl, ht⟩ := unchanged_of_checked (checked hstep i) hnot
        rw [hl, ht, if_neg fun hd : Dispatches ⟨u, .boost c, v⟩ i ↦ hnot hd.1]
        exact htracks.congr hlevel hticks
      · obtain ⟨hm, hl, ht⟩ := slotMove hstep (fun c hc ↦ ha ⟨c, hc⟩) i
        rw [hl, ht]
        exact htracks.step hm (hnew _ (by simp))

/-- A process that has been dispatched since its own snapshot, but not so often that the ticks have
come round to it, does not look starved. -/
theorem not_starved_of_tracks {tr : List (Move (Kernel ncpu) (Act ncpu))} (h : Tracks i tr s)
    (hpos : 0 < dispatches i (sinceSnapshot i tr)) (hrecent : Recent i tr) : ¬Starved i s := by
  rintro ⟨-, hlevel, hticks⟩
  rcases h with h | ⟨-, h⟩
  · omega
  · rw [hticks, hlevel] at h
    have hdvd := h.symm.dvd
    rw [Recent] at hrecent
    omega

/-! ## Between two checks -/

/-- A stretch of a run without a check. -/
def CheckFree (tr : List (Move (Kernel ncpu) (Act ncpu))) : Prop := ∀ m ∈ tr, ∀ c, m.act ≠ .boost c

theorem snapshot_of_checkFree {tr : List (Move (Kernel ncpu) (Act ncpu))} (h : Run step s tr t)
    (hfree : CheckFree tr) : t.lastLevel = s.lastLevel ∧ t.lastTicks = s.lastTicks := by
  induction h with
  | nil => exact ⟨rfl, rfl⟩
  | @snoc u v tr a hrun hstep ih =>
    obtain ⟨hl, ht⟩ := ih fun m hm ↦ hfree m (List.mem_append_left _ hm)
    obtain ⟨-, hl', ht'⟩ := slotMove hstep (hfree ⟨u, a, v⟩ (by simp)) initproc
    exact ⟨hl'.trans hl, ht'.trans ht⟩

/-- Without a check or a dispatch a process keeps its level and ticks; a new one has level 0. -/
theorem level_of_not_dispatched {tr : List (Move (Kernel ncpu) (Act ncpu))} (h : Run step s tr t)
    (hfree : CheckFree tr) (hdispatch : ∀ m ∈ tr, ¬Dispatches m i) :
    (t.proc i).level = 0 ∨
      (t.proc i).level = (s.proc i).level ∧ (t.proc i).timeticks = (s.proc i).timeticks := by
  induction h with
  | nil => exact .inr ⟨rfl, rfl⟩
  | @snoc u v tr a hrun hstep ih =>
    have hprev := ih (fun m hm ↦ hfree m (List.mem_append_left _ hm))
      fun m hm ↦ hdispatch m (List.mem_append_left _ hm)
    have hnot := hdispatch ⟨u, a, v⟩ (by simp)
    obtain ⟨hm, -, -⟩ := slotMove hstep (hfree ⟨u, a, v⟩ (by simp)) i
    cases hm with
    | same hlevel hticks => rwa [hlevel, hticks]
    | dispatch _ hd => exact absurd hd hnot
    | create hc hlevel => exact .inl hlevel

/-- Two consecutive executions of `check_starve_and_boost` in a run from boot: the `past` before the
first, by CPU `c`, and the `gap` between the two. -/
structure Window (past gap : List (Move (Kernel ncpu) (Act ncpu))) (c : Fin ncpu)
    (s₀ s₁ s₂ s₃ : Kernel ncpu) : Prop where
  history : Run step (boot ncpu) past s₀
  first : step (.boost c) s₀ = some s₁
  run : Run step s₁ gap s₂
  consecutive : CheckFree gap
  second : ∃ c', step (.boost c') s₂ = some s₃

/-- A process gives up its CPU. -/
def Reschedules (m : Move (Kernel ncpu) (Act ncpu)) : Prop :=
  ∃ c q ii p ii' p', m.src.cpu c = .running q ii p ∧ m.dst.cpu c = .scan ii' p'

/-- The process of the slot is not dispatched, and RUNNABLE from the first rescheduling on. -/
def Waits (gap : List (Move (Kernel ncpu) (Act ncpu))) (i : Slot) : Prop :=
  (∀ m ∈ gap, ¬Dispatches m i) ∧
    ∃ pre m post, gap = pre ++ m :: post ∧ Reschedules m ∧ (∀ m' ∈ pre, ¬Reschedules m') ∧
      ∀ m' ∈ m :: post, (m'.dst.proc i).state = .runnable

/-- The process of the slot is dispatched, or it is new. -/
def Served (gap : List (Move (Kernel ncpu) (Act ncpu))) (i : Slot) : Prop :=
  ∃ m ∈ gap, Dispatches m i ∨ Creates m i

theorem runnable_last {gap : List (Move (Kernel ncpu) (Act ncpu))} (h : Run step s gap t)
    (hw : Waits gap i) : (t.proc i).state = .runnable := by
  obtain ⟨-, pre, m, post, rfl, -, -, hrun⟩ := hw
  obtain ⟨u, -, hu⟩ := h.split
  obtain ⟨init, last, hlast⟩ : ∃ init last, m :: post = init ++ [last] :=
    ⟨_, _, (List.dropLast_append_getLast (by simp)).symm⟩
  rw [hlast] at hu hrun
  obtain ⟨-, -, rfl⟩ := hu.snoc_inv
  exact hrun last (by simp)

section Window

variable {past gap : List (Move (Kernel ncpu) (Act ncpu))} {c : Fin ncpu}
  {s₀ s₁ s₂ s₃ : Kernel ncpu}

/-- A process that waits is moved up by one level exactly when it was RUNNABLE at the first check,
or its stale snapshot happens to show it as it is. -/
theorem Window.boosted_iff (h : Window past gap c s₀ s₁ s₂ s₃) (hw : Waits gap i)
    (hlevel : 1 ≤ (s₂.proc i).level) :
    (s₃.proc i).level = (s₂.proc i).level - 1 ↔ (s₀.proc i).state = .runnable ∨
      ((s₂.proc i).level = s₀.lastLevel i ∧
        (s₂.proc i).timeticks (s₂.proc i).level = s₀.lastTicks i (s₂.proc i).level) := by
  obtain ⟨c', hsecond⟩ := h.second
  have hrun := runnable_last h.run hw
  obtain ⟨hl, ht⟩ := snapshot_of_checkFree h.run h.consecutive
  have hmoved : (s₃.proc i).level = (s₂.proc i).level - 1 ↔ Starved i s₂ := by
    rw [level_of_checked (checked hsecond i)]
    by_cases hs : Starved i s₂
    · simp [hrun, hs]
    · rw [if_neg fun h ↦ hs h.2]
      exact ⟨fun he ↦ by omega, fun h ↦ absurd h hs⟩
  rw [hmoved, Starved, hl, ht]
  by_cases hold : (s₀.proc i).state = .runnable
  · -- the snapshot was taken at the first check, and the process has not moved since
    obtain ⟨hlast, hticks⟩ := snapshot_of_checked (checked h.first i) hold
    have hsame := (level_of_not_dispatched h.run h.consecutive hw.1).resolve_left (by omega)
    simp only [hold, true_or, iff_true]
    refine ⟨by omega, by rw [hlast, hsame.1], ?_⟩
    rw [hsame.1, hsame.2, hticks]
  · obtain ⟨-, -, hl₀, ht₀⟩ := unchanged_of_checked (checked h.first i) hold
    rw [hl₀, ht₀]
    constructor
    · exact fun hs ↦ .inr hs.2
    · exact fun hs ↦ ⟨by omega, hs.resolve_left hold⟩

/-- A process that was dispatched since the first check does not look like its own snapshot. -/
theorem Window.not_starved (h : Window past gap c s₀ s₁ s₂ s₃) (hserved : Served gap i)
    (hown : OwnSnapshot (past ++ [⟨s₀, .boost c, s₁⟩] ++ gap) i)
    (hrecent : Recent i (past ++ [⟨s₀, .boost c, s₁⟩] ++ gap)) : ¬Starved i s₂ := by
  have hrefresh : ∀ m ∈ gap, ¬Refreshes m i := by
    rintro m hm ⟨⟨c', hc'⟩, -⟩
    exact h.consecutive m hm c' hc'
  obtain ⟨m, hm, hd⟩ := hserved
  replace hd := hd.resolve_right ((hown.of_append hrefresh).2 m hm)
  have htracks := tracks_of_run ((h.history.snoc h.first).append h.run) hown
  refine not_starved_of_tracks htracks ?_ hrecent
  rw [sinceSnapshot_append hrefresh, dispatches, List.countP_pos_iff]
  exact ⟨m, List.mem_append_right _ hm, by simpa using hd⟩

/-- A process that was dispatched since the first check, or is new, stays at its level exactly
when it is not RUNNABLE or at level 0, or its snapshot is its own and not older than `2 ^ 32`
dispatches, or the snapshot does not happen to show it as it is. -/
theorem Window.not_boosted_iff (h : Window past gap c s₀ s₁ s₂ s₃) (hserved : Served gap i) :
    ¬(s₃.proc i).level < (s₂.proc i).level ↔
      (s₂.proc i).state ≠ .runnable ∨ (s₂.proc i).level = 0 ∨
        OwnSnapshot (past ++ [⟨s₀, .boost c, s₁⟩] ++ gap) i ∧
            Recent i (past ++ [⟨s₀, .boost c, s₁⟩] ++ gap) ∨
          ¬((s₂.proc i).level = s₂.lastLevel i ∧
            (s₂.proc i).timeticks (s₂.proc i).level = s₂.lastTicks i (s₂.proc i).level) := by
  obtain ⟨c', hsecond⟩ := h.second
  rw [level_of_checked (checked hsecond i)]
  constructor
  · intro hstay
    by_contra hall
    push Not at hall
    obtain ⟨hrun, hlevel, -, hsame⟩ := hall
    rw [if_pos ⟨hrun, hlevel, hsame⟩] at hstay
    omega
  · intro hcond
    have hnot : ¬((s₂.proc i).state = .runnable ∧ Starved i s₂) := by
      rintro ⟨hrun, hs⟩
      rcases hcond with hstate | hlevel | ⟨hown, hrecent⟩ | hdiff
      · exact hstate hrun
      · exact hs.1 hlevel
      · exact h.not_starved hserved hown hrecent hs
      · exact hdiff hs.2
    rw [if_neg hnot]
    omega

end Window

/-- **The starvation boost.** For two consecutive checks of a run: a waiting process of level 1 or
more is moved up one level by the second exactly when it was RUNNABLE at the first, or its stale
snapshot shows it as it is. A process that was dispatched in between, or is new, is not moved up
exactly when it is not RUNNABLE or at level 0, or a check has found it RUNNABLE before, less than
`2 ^ 32` dispatches ago, or the snapshot in its slot does not show it as it is. -/
theorem starvation_boost_iff (ncpu : ℕ) (past gap : List (Move (Kernel ncpu) (Act ncpu)))
    (c : Fin ncpu) (s₀ s₁ s₂ s₃ : Kernel ncpu) (h : Window past gap c s₀ s₁ s₂ s₃) (i : Slot) :
    (Waits gap i → 1 ≤ (s₂.proc i).level →
      ((s₃.proc i).level = (s₂.proc i).level - 1 ↔ (s₀.proc i).state = .runnable ∨
        ((s₂.proc i).level = s₀.lastLevel i ∧
          (s₂.proc i).timeticks (s₂.proc i).level = s₀.lastTicks i (s₂.proc i).level))) ∧
    (Served gap i →
      (¬(s₃.proc i).level < (s₂.proc i).level ↔
        (s₂.proc i).state ≠ .runnable ∨ (s₂.proc i).level = 0 ∨
          OwnSnapshot (past ++ [⟨s₀, .boost c, s₁⟩] ++ gap) i ∧
              Recent i (past ++ [⟨s₀, .boost c, s₁⟩] ++ gap) ∨
            ¬((s₂.proc i).level = s₂.lastLevel i ∧
              (s₂.proc i).timeticks (s₂.proc i).level = s₂.lastTicks i (s₂.proc i).level))) :=
  ⟨fun hw hlevel ↦ h.boosted_iff hw hlevel, fun hserved ↦ h.not_boosted_iff hserved⟩

/-! ## A process that ran at the first check -/

/-- The slot of the first process's fourth child. -/
def fourthChild : Slot := ⟨4, by decide⟩

section Example

def ticks (n : ℕ) : List (Act 1) :=
  (List.replicate n [.timer 0, .yield 0, .scan 0, .resume 0]).flatten

/-- A tick after which the scheduler goes round the rest of the table. -/
def roundTick : List (Act 1) :=
  [.timer 0, .yield 0] ++ List.replicate 61 (.scan 0) ++ [.resume 0]

def forks (n : ℕ) : List (Act 1) := (List.replicate n [.allocproc 0, .fork 0]).flatten

/-- Five processes use up their slices of the levels 0, 1 and 2, but for the first tick. -/
def slices : List (Act 1) := ticks 24 ++ roundTick ++ ticks 24 ++ roundTick ++ ticks 49

/-- The first process and its four children run for 100 ticks. In the last tick the fourth child,
at level 3 by now, forks five children of its own. -/
def firstSecond : List (Act 1) :=
  [.acquire 0, .scan 0, .resume 0] ++ forks 4 ++ slices ++ forks 5 ++ [.timer 0]

/-- The five new processes run for the next 100 ticks. -/
def nextSecond : List (Act 1) :=
  List.replicate 7 (.scan 0) ++ [.resume 0] ++ slices ++ [.timer 0]

theorem boost_notMem_nextSecond : Act.boost 0 ∉ nextSecond := by
  decide +kernel

theorem fourthChild_replay : ((replay step firstSecond (boot 1)).bind fun s₀ ↦
    (step (.boost 0) s₀).bind fun s₁ ↦ (step (.yield 0) s₁).bind fun u ↦
      (replayIn step (fun s ↦ (s.proc fourthChild).state = .runnable) nextSecond u).bind fun s₂ ↦
        (step (.boost 0) s₂).map fun s₃ ↦ (s₁.cpu 0, u.cpu 0, (u.proc fourthChild).state,
          (s₂.proc fourthChild).level, (s₃.proc fourthChild).level))
    = some (.running fourthChild 2 5, .scan 2 5, .runnable, 3, 3) := by
  decide +kernel

/-- The fourth child, RUNNING at the first check, waits at level 3 until the second. -/
theorem fourthChild_waits : ∃ (past gap : List (Move (Kernel 1) (Act 1))) (s₀ s₁ s₂ s₃ : Kernel 1),
    Window past gap 0 s₀ s₁ s₂ s₃ ∧ Waits gap fourthChild ∧ (s₂.proc fourthChild).level = 3 ∧
      (s₃.proc fourthChild).level = 3 := by
  obtain ⟨s₀, h₀, hrest⟩ := Option.bind_eq_some_iff.mp fourthChild_replay
  obtain ⟨s₁, h₁, hrest⟩ := Option.bind_eq_some_iff.mp hrest
  obtain ⟨u, hu, hrest⟩ := Option.bind_eq_some_iff.mp hrest
  obtain ⟨s₂, h₂, hrest⟩ := Option.bind_eq_some_iff.mp hrest
  obtain ⟨s₃, h₃, hval⟩ := Option.map_eq_some_iff.mp hrest
  obtain ⟨hc₁, hcu, hrun, hlevel₂, hlevel₃⟩ : s₁.cpu 0 = .running fourthChild 2 5 ∧
      u.cpu 0 = .scan 2 5 ∧ (u.proc fourthChild).state = .runnable ∧
        (s₂.proc fourthChild).level = 3 ∧ (s₃.proc fourthChild).level = 3 := by
    simpa using hval
  obtain ⟨past, hpast, -⟩ := exists_run_of_replay h₀
  obtain ⟨post, hpost, hact, hok⟩ := exists_run_of_replayIn h₂
  have hwaiting : ∀ m ∈ (⟨s₁, .yield 0, u⟩ : Move (Kernel 1) (Act 1)) :: post,
      (m.dst.proc fourthChild).state = .runnable := by
    intro m hm
    rcases List.mem_cons.mp hm with rfl | hm
    · exact hrun
    · simpa using hok m hm
  refine ⟨past, ⟨s₁, .yield 0, u⟩ :: post, s₀, s₁, s₂, s₃, ⟨hpast, h₁, hpost.cons hu, ?_, 0, h₃⟩,
    ⟨?_, [], ⟨s₁, .yield 0, u⟩, post, rfl, ⟨0, _, _, _, _, _, hc₁, hcu⟩, by simp, hwaiting⟩,
    hlevel₂, hlevel₃⟩
  · intro m hm c
    rcases List.mem_cons.mp hm with rfl | hm
    · simp
    · have hmem : m.act ∈ nextSecond := hact ▸ List.mem_map_of_mem hm
      rintro hb
      rw [hb, Subsingleton.elim c 0] at hmem
      exact boost_notMem_nextSecond hmem
  · rintro m hm ⟨-, hdst⟩
    rw [hwaiting m hm] at hdst
    simp at hdst

theorem starvation_boost_fourthChild : ∃ s₀ s₂ s₃ : Kernel 1,
    ((s₃.proc fourthChild).level = (s₂.proc fourthChild).level - 1 ↔
      (s₀.proc fourthChild).state = .runnable ∨
        ((s₂.proc fourthChild).level = s₀.lastLevel fourthChild ∧
          (s₂.proc fourthChild).timeticks (s₂.proc fourthChild).level
            = s₀.lastTicks fourthChild (s₂.proc fourthChild).level)) := by
  obtain ⟨past, gap, s₀, s₁, s₂, s₃, hwindow, hwaits, hlevel, -⟩ := fourthChild_waits
  exact ⟨s₀, s₂, s₃, (starvation_boost_iff 1 past gap 0 s₀ s₁ s₂ s₃ hwindow fourthChild).1 hwaits
    (by rw [hlevel]; decide)⟩

/-- The second check leaves the fourth child at level 3. -/
theorem not_boosted_fourthChild :
    ¬∀ (past gap : List (Move (Kernel 1) (Act 1))) (c : Fin 1) (s₀ s₁ s₂ s₃ : Kernel 1) (i : Slot),
      Window past gap c s₀ s₁ s₂ s₃ →
        (Waits gap i → 1 ≤ (s₂.proc i).level → (s₃.proc i).level = (s₂.proc i).level - 1) ∧
          (Served gap i → ¬(s₃.proc i).level < (s₂.proc i).level) := by
  intro hall
  obtain ⟨past, gap, s₀, s₁, s₂, s₃, hwindow, hwaits, hlevel₂, hlevel₃⟩ := fourthChild_waits
  have hboost := (hall past gap 0 s₀ s₁ s₂ s₃ fourthChild hwindow).1 hwaits
    (by rw [hlevel₂]; decide)
  rw [hlevel₂, hlevel₃] at hboost
  simp at hboost

end Example

end CS537.Mlfq
