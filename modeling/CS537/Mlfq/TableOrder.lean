import CS537.Mlfq.Charging
import CS537.Mlfq.Lives

/-!
# The order of dispatches

There are no queues: the scheduler goes round the process table. On one CPU the scan goes on from
the slot of the last dispatch while the level stays the highest, and from slot 0 otherwise, and
takes the first RUNNABLE process of that level. So the processes of a level take turns in the order
of the table, not in the order in which they joined the level, and only while no other level comes
in between.
-/

namespace CS537.Mlfq

open Function Transition Wrapping

/-! ## Going round the table -/

/-- How far the slot is ahead of the position `k`, going round the table. -/
def ahead (k : ℕ) (r : Slot) : ℕ := if k ≤ r then r - k else r + nproc - k

theorem ahead_self (r : Slot) : ahead r r = 0 := by
  simp [ahead]

theorem ahead_nproc (r : Slot) : ahead nproc r = ahead 0 r := by
  have hr := r.2
  rw [ahead, ahead, if_neg (by omega), if_pos (Nat.zero_le _)]
  omega

theorem ahead_succ {k : ℕ} {r : Slot} (hk : k < nproc) (h : k ≠ r) :
    ahead k r = ahead (k + 1) r + 1 := by
  rw [ahead, ahead]
  split_ifs <;> omega

/-- A slot just passed is the last one ahead. -/
theorem ahead_passed {p q : Slot} (h : q ≠ p) : ahead (p + 1) q < ahead (p + 1) p := by
  have hne : (q : ℕ) ≠ p := fun he ↦ h (Fin.ext he)
  have hp := p.2
  have hq := q.2
  rw [ahead, ahead]
  split_ifs <;> omega

/-- Where the scan stands for the processes of level `l`: unless it is in layer `l`, it will come
to that layer at slot 0. -/
def Cpu.position (l : ℤ) : Cpu → ℕ
  | .scan ii p | .running _ ii p => if ii = l then p else 0
  | .idle => 0

/-- RUNNABLE at level `l`. -/
def Waiting (l : ℤ) (p : Proc) : Prop := p.state = .runnable ∧ p.level = l

/-- The first process waiting at level `l`, from the position `k` round the table. -/
def First (proc : Slot → Proc) (l : ℤ) (k : ℕ) (q : Slot) : Prop :=
  Waiting l (proc q) ∧ ∀ r, Waiting l (proc r) → ahead k q ≤ ahead k r

section Scan

variable {proc : Slot → Proc} {n : ℤ → ℤ} {ii ii' : ℤ} {k k' : ℕ} {q : Slot}

theorem First.skip {l : ℤ} (hk : k < nproc) (hskip : ¬Waiting l (proc ⟨k, hk⟩))
    (h : First proc l (k + 1) q) : First proc l k q := by
  have hne : ∀ r, Waiting l (proc r) → k ≠ r := by
    rintro r hr rfl
    exact hskip hr
  refine ⟨h.1, fun r hr ↦ ?_⟩
  rw [ahead_succ hk (hne q h.1), ahead_succ hk (hne r hr)]
  exact Nat.succ_le_succ (h.2 r hr)

/-- An iteration passes no process of the highest level. -/
theorem First.of_next (hk : k ≤ nproc) (hit : iterate proc n ii k = .next ii' k')
    (h : First proc (highestlevel n) ((Cpu.scan ii' k').position (highestlevel n)) q) :
    First proc (highestlevel n) ((Cpu.scan ii k).position (highestlevel n)) q := by
  rw [Cpu.position] at h ⊢
  cases (nextIter hit).2 with
  | idle hp hskip =>
    split_ifs at h ⊢
    · exact h.skip hp fun hw ↦ hskip hw.1
    · exact h
  | other hp htop hskip =>
    rw [if_pos htop] at h ⊢
    exact h.skip hp fun hw ↦ hskip (hw.2.trans htop.symm)
  | restart _ _ htop =>
    rw [if_pos rfl] at h
    rwa [if_neg htop]
  | layer hp =>
    rw [ite_self] at h
    split_ifs
    · obtain rfl := Nat.le_antisymm hk hp
      simpa only [First, ahead_nproc] using h
    · exact h

theorem first_of_dispatch (hit : iterate proc n ii k = .dispatch q) :
    First proc (highestlevel n) ((Cpu.scan ii k).position (highestlevel n)) q := by
  obtain ⟨hrun, hlevel, htop, rfl⟩ := iterate_dispatch hit
  refine ⟨⟨hrun, hlevel.trans htop⟩, fun r _ ↦ ?_⟩
  rw [Cpu.position, if_pos htop, ahead_self]
  exact Nat.zero_le _

end Scan

variable {s t u v : Kernel 1} {a : Act 1} {p q : Slot}
variable {past mid tr : List (Move (Kernel 1) (Act 1))} {d₁ d₂ : Move (Kernel 1) (Act 1)}

/-- While the scheduler only scans the table, it passes no process of the highest level. -/
theorem first_of_scans (hu : Reachable u) (h : Run step u tr v) (htr : ∀ m ∈ tr, m.act = .scan 0)
    (hv : Scanning 0 v) : v.proc = u.proc ∧ v.ninlevel = u.ninlevel ∧
      (First v.proc (highestlevel v.ninlevel) ((v.cpu 0).position (highestlevel v.ninlevel)) q →
        First u.proc (highestlevel u.ninlevel)
          ((u.cpu 0).position (highestlevel u.ninlevel)) q) := by
  induction h with
  | nil => exact ⟨rfl, rfl, id⟩
  | @snoc w v tr a hrun hstep ih =>
    have hw : Reachable w := hu.run hrun fun _ _ ↦ trivial
    obtain rfl : a = .scan 0 := htr ⟨w, a, v⟩ (by simp)
    cases trans_of_step hstep with
    | @scan _ ii k hc =>
      obtain ⟨hproc, hn, hfirst⟩ := ih (fun m hm ↦ htr m (List.mem_append_left _ hm)) ⟨ii, k, hc⟩
      have hrange := (OnCpu.of_reachable hw).inRange 0
      rw [hc] at hrange
      obtain ⟨ii', k', hc'⟩ := hv
      cases hit : iterate w.proc w.ninlevel ii k with
      | next ii₁ k₁ =>
        have hnext : schedulerStep 0 ii k w = w.setCpu 0 (.scan ii₁ k₁) := by
          rw [schedulerStep_eq, hit]
        rw [hnext]
        refine ⟨hproc, hn, fun h ↦ hfirst ?_⟩
        rw [setCpu_cpu, update_self] at h
        rw [hc]
        exact h.of_next hrange.2.2 hit
      -- after a dispatch or at the end of the loops the CPU does not scan
      | dispatch r =>
        obtain ⟨_, -, hcpu⟩ := dispatch_cpu (s := w) 0 r ii
        rw [schedulerStep_eq, hit, hcpu, update_self] at hc'
        cases hc'
      | release =>
        rw [schedulerStep_eq, hit, setLock_cpu, setCpu_cpu, update_self] at hc'
        cases hc'

/-- The scheduler takes the first process waiting at the highest level, from where it stands. -/
theorem first_of_dispatches (hu : Reachable u) (h : Run step u tr s)
    (htr : ∀ m ∈ tr, m.act = .scan 0) (hstep : step a s = some t) (hq : Dispatches ⟨s, a, t⟩ q) :
    First u.proc (s.proc q).level ((u.cpu 0).position (s.proc q).level) q := by
  obtain ⟨c, ii, k, rfl, hc, hit, -⟩ := dispatches_inv hstep hq
  rw [Subsingleton.elim c 0] at hc
  obtain ⟨-, hn, hfirst⟩ := first_of_scans (q := q) hu h htr ⟨ii, k, hc⟩
  obtain ⟨-, hlevel, htop, -⟩ := iterate_dispatch hit
  rw [hlevel, htop, hn]
  refine hfirst ?_
  rw [hc]
  exact first_of_dispatch hit

/-! ## Taking turns -/

theorem runnable_step {ncpu : ℕ} {s t : Kernel ncpu} {a : Act ncpu} (h : Shape s)
    (hstep : step a s = some t) (hq : (s.proc q).state = .runnable) :
    (t.proc q).state = .runnable ∨ (t.proc q).state = .running := by
  have hedge : Edge (s.proc q).state (t.proc q).state →
      (t.proc q).state = .runnable ∨ (t.proc q).state = .running := by
    intro he
    rw [hq] at he
    generalize (t.proc q).state = x at he ⊢
    cases he with
    | stay => exact .inl rfl
    | dispatch => exact .inr rfl
  cases lifeMove h hstep q with
  | same hstate => exact hedge hstate
  | orphan _ _ _ _ hstate => exact hedge hstate
  | exit _ hc => cases (h.caller_running hc).symm.trans hq
  | kill _ _ hstate => exact hedge hstate
  | publish _ _ hdst => exact .inl hdst
  | fault _ _ hstate => exact .inl (hstate.trans hq)
  | create _ hsrc =>
    rw [hq] at hsrc
    cases hsrc
  | reap _ hsrc =>
    rw [hq] at hsrc
    cases hsrc

theorem waiting_step {ncpu : ℕ} {s t : Kernel ncpu} {a : Act ncpu} {l : ℤ} (h : Shape s)
    (hstep : step a s = some t) (ha : ∀ c, a ≠ .boost c) (hq : Waiting l (s.proc q)) :
    Waiting l (t.proc q) ∨ Dispatches ⟨s, a, t⟩ q := by
  rcases runnable_step h hstep hq.1 with hrun | hrun
  · left
    refine ⟨hrun, ?_⟩
    cases (slotMove hstep ha q).1 with
    | same hlevel => exact hlevel.trans hq.2
    | dispatch _ hd =>
      have hdst := hrun.symm.trans hd.2
      cases hdst
    | create hc =>
      have hsrc := hq.1.symm.trans hc.1
      cases hsrc
  · exact .inr ⟨hq.1, hrun⟩

/-- A process that stops being RUNNABLE or RUNNING has called `sched`. -/
theorem sched_of_unready (h : Reachable s) (hstep : step a s = some t) (hp : (s.proc p).Ready)
    (hp' : ¬(t.proc p).Ready) :
    ∃ ii k, s.cpu 0 = .running p ii k ∧ t.cpu 0 = .scan ii k := by
  have hs := Shape.of_reachable h
  rcases hp with hp | hp
  · exact absurd (runnable_step hs hstep hp) hp'
  obtain ⟨c, ii, k, hc⟩ := (OnCpu.of_reachable h).placed hp
  rw [Subsingleton.elim c 0] at hc
  cases cpuMove hstep with
  | stay hcpu =>
    rw [← hcpu] at hc
    exact absurd (.inr ((hs.step hstep).running hc)) hp'
  | @acquire c' _ hc' =>
    rw [Subsingleton.elim c' 0, hc] at hc'
    cases hc'
  | @iterate c' _ _ hc' =>
    rw [Subsingleton.elim c' 0, hc] at hc'
    cases hc'
  | @leave _ _ c' r ii' k' hc' hcpu =>
    rw [Subsingleton.elim c' 0] at hc' hcpu
    obtain ⟨rfl, rfl, rfl⟩ := Cpu.running.inj (hc.symm.trans hc')
    exact ⟨ii, k, hc, by rw [hcpu, update_self]⟩

/-- The move takes the process out of its slice: the dispatch uses the slice up, or the process is
no longer RUNNABLE or RUNNING. -/
def Rejoins (m : Move (Kernel 1) (Act 1)) (p : Slot) : Prop :=
  Dispatches m p ∧ toInt32 ((m.src.proc p).timeticks (m.src.proc p).level + 1)
    % mlpqTimeticks (m.src.proc p).level = 0 ∨ ¬(m.dst.proc p).Ready

/-- What every move between two dispatches of `p` at level `l` satisfies while `q` waits there. -/
structure TurnMove (q : Slot) (l : ℤ) (m : Move (Kernel 1) (Act 1)) : Prop where
  whole : ReachableWhole m.src
  enabled : step m.act m.src = some m.dst
  before : Waiting l (m.src.proc q)
  after : Waiting l (m.dst.proc q)
  lowest : ∀ r, (m.src.proc r).state = .runnable → l ≤ (m.src.proc r).level
  level : ∀ r, Dispatches m r → (m.src.proc r).level = l

/-- The CPU stands at `p`, which is in its slice (`rejoined` is false) or has just left it, or it
will come to `q` before it comes to `p`. -/
inductive Stand (p q : Slot) (l : ℤ) (rejoined : Prop) (s : Kernel 1) : Prop
  | running {r : Slot} (hc : s.cpu 0 = .running r l p) (h : ¬rejoined) (hp : (s.proc p).Ready)
  | scan (hc : s.cpu 0 = .scan l p) (h : ¬(s.proc p).Ready ∨ ¬rejoined ∧ (s.proc p).Ready)
  | passed (h : ahead ((s.cpu 0).position l) q < ahead ((s.cpu 0).position l) p)

theorem dispatch_cpu_eq (q : Slot) (ii : ℤ) : (dispatch 0 q ii s).cpu = update s.cpu 0
    (.running q ii (if toInt32 ((s.proc q).timeticks (s.proc q).level + 1)
      % mlpqTimeticks (s.proc q).level = 0 then q + 1 else q)) := by
  rw [dispatch, Cumulative.dispatch]
  simp only
  by_cases htt : toInt32 ((s.proc q).timeticks (s.proc q).level + 1)
      % mlpqTimeticks (s.proc q).level = 0
  · rw [if_neg (not_not.mpr htt), if_pos htt]
    split <;> rfl
  · rw [if_pos htt, if_neg htt]
    rfl

theorem TurnMove.highestlevel_eq {l : ℤ} {m : Move (Kernel 1) (Act 1)} (hm : TurnMove q l m)
    (hc : Scanning 0 m.src) : highestlevel m.src.ninlevel = l :=
  hm.before.2 ▸ highestlevel_of_lowest hm.whole hc hm.before.1 fun r hr ↦
    hm.before.2.symm ▸ hm.lowest r hr

/-- One iteration that goes on. -/
theorem Stand.next {l : ℤ} {R : Prop} {ii ii' : ℤ} {k k' : ℕ} (h : Stand p q l R s) (hqp : q ≠ p)
    (hq : Waiting l (s.proc q)) (htop : highestlevel s.ninlevel = l) (hc : s.cpu 0 = .scan ii k)
    (hk : k ≤ nproc) (hit : iterate s.proc s.ninlevel ii k = .next ii' k') (R' : Prop) :
    Stand p q l R' (s.setCpu 0 (.scan ii' k')) := by
  refine .passed ?_
  rw [setCpu_cpu, update_self, Cpu.position]
  have hnext := (nextIter hit).2
  subst htop
  cases h with
  | running hc' => cases hc.symm.trans hc'
  | scan hc' =>
    -- the loop stands at `p` and passes it, so `q` comes first
    obtain ⟨rfl, rfl⟩ := Cpu.scan.inj (hc.symm.trans hc')
    cases hnext with
    | idle | other =>
      rw [if_pos rfl]
      exact ahead_passed hqp
    | restart _ _ hne => exact absurd rfl hne
    | layer hp => exact absurd p.2 (not_lt.mpr hp)
  | passed h =>
    rw [hc, Cpu.position] at h
    -- a step past a slot that is neither `q` nor `p` brings both nearer
    have hskip : ∀ hk : k < nproc, ⟨k, hk⟩ ≠ q → ii = highestlevel s.ninlevel →
        ahead (k + 1) q < ahead (k + 1) p := by
      rintro hk hkq rfl
      rw [if_pos rfl] at h
      have hkp : k ≠ p := by
        rintro rfl
        rw [ahead_self] at h
        exact absurd h (Nat.not_lt_zero _)
      rw [ahead_succ hk fun he ↦ hkq (Fin.ext he), ahead_succ hk hkp] at h
      omega
    cases hnext with
    | idle hk hidle =>
      split_ifs at h ⊢ with hii
      · refine hskip hk ?_ hii
        rintro rfl
        exact hidle hq.1
      · exact h
    | other hk hii hother =>
      rw [if_pos hii]
      refine hskip hk ?_ hii
      rintro rfl
      exact hother (hq.2.trans hii.symm)
    | restart _ _ hne =>
      rw [if_neg hne] at h
      rwa [ite_self]
    | layer hp =>
      rw [ite_self]
      split_ifs at h with hii
      · obtain rfl := Nat.le_antisymm hk hp
        rwa [ahead_nproc, ahead_nproc] at h
      · exact h

/-- A dispatch of another process than `q`. -/
theorem Stand.dispatch {l : ℤ} {R : Prop} {ii : ℤ} {k : ℕ} {r : Slot} (h : Stand p q l R s)
    (hqp : q ≠ p) (hqr : r ≠ q) (hlevel : (s.proc r).level = l) (hc : s.cpu 0 = .scan ii k)
    (hit : iterate s.proc s.ninlevel ii k = .dispatch r) :
    Stand p q l (R ∨ Rejoins ⟨s, a, dispatch 0 r ii s⟩ p) (dispatch 0 r ii s) := by
  obtain ⟨hrun, hii, -, rfl⟩ := iterate_dispatch hit
  obtain rfl : ii = l := hii.symm.trans hlevel
  have hcpu := dispatch_cpu_eq (s := s) r ii
  cases h with
  | running hc' => cases hc.symm.trans hc'
  | scan hc' hp =>
    obtain ⟨-, hrp⟩ := Cpu.scan.inj (hc.symm.trans hc')
    obtain rfl : r = p := Fin.ext hrp
    -- `p` itself: with the last tick of its slice the loop goes on behind it
    rcases hp with hp | ⟨hR, -⟩
    · exact absurd (ready_of_runnable hrun) hp
    by_cases htt : toInt32 ((s.proc r).timeticks (s.proc r).level + 1)
        % mlpqTimeticks (s.proc r).level = 0
    · refine .passed ?_
      rw [hcpu, if_pos htt, update_self, Cpu.position, if_pos rfl]
      exact ahead_passed hqp
    · have hready : ((dispatch 0 r ii s).proc r).Ready := by
        rw [dispatch_proc, update_self]
        exact .inr rfl
      refine .running (r := r) ?_ ?_ hready
      · rw [hcpu, if_neg htt, update_self]
      · rintro (h | ⟨-, hused⟩ | hnot)
        · exact hR h
        · exact htt hused
        · exact hnot hready
  | passed h =>
    rw [hc, Cpu.position, if_pos rfl] at h
    have hrp : (r : ℕ) ≠ p := by
      intro he
      rw [he, ahead_self] at h
      exact absurd h (Nat.not_lt_zero _)
    -- the dispatched slot comes before `q`, and the CPU will go on there or behind it
    refine .passed ?_
    rw [hcpu, update_self, Cpu.position, if_pos rfl]
    split
    · rw [ahead_succ r.2 fun he ↦ hqr (Fin.ext he), ahead_succ r.2 hrp] at h
      omega
    · exact h

/-- A move that executes no loop iteration and leaves `p` ready does not end the slice of `p`. -/
theorem not_rejoined {R : Prop} {s t : Kernel 1} {a : Act 1} (hstep : step a s = some t)
    (ha : ∀ c, a ≠ .scan c) (hR : ¬R) (hp : (t.proc p).Ready) :
    ¬(R ∨ Rejoins ⟨s, a, t⟩ p) := by
  rintro (h | ⟨hd, -⟩ | hnot)
  · exact hR h
  · obtain ⟨c, _, _, rfl, -⟩ := dispatches_inv hstep hd
    exact ha c rfl
  · exact hnot hp

/-- A move that leaves the CPU as it is. -/
theorem Stand.stay {l : ℤ} {R : Prop} {s t : Kernel 1} {a : Act 1} (h : Stand p q l R s)
    (hreach : Reachable s) (hstep : step a s = some t) (hcpu : t.cpu = s.cpu)
    (ha : ∀ c, a ≠ .scan c) : Stand p q l (R ∨ Rejoins ⟨s, a, t⟩ p) t := by
  cases h with
  | @running r hc hR hp =>
    have hp' : (t.proc p).Ready := by
      by_contra hnot
      obtain ⟨_, _, -, hc'⟩ := sched_of_unready hreach hstep hp hnot
      rw [hcpu, hc] at hc'
      cases hc'
    exact .running (hcpu ▸ hc) (not_rejoined hstep ha hR hp') hp'
  | scan hc => exact absurd (scan_of_scanning (.of_reachable hreach) ⟨_, _, hc⟩ hstep) (ha 0)
  | passed h => exact .passed (hcpu ▸ h)

/-- The CPU enters the loop. -/
theorem Stand.acquire {l : ℤ} {R R' : Prop} {s t : Kernel 1} (h : Stand p q l R s)
    (hc : s.cpu 0 = .idle) (hcpu : t.cpu = update s.cpu 0 (.scan 0 0)) : Stand p q l R' t := by
  cases h with
  | running hc' => cases hc.symm.trans hc'
  | scan hc' => cases hc.symm.trans hc'
  | passed h =>
    refine .passed ?_
    rw [hc, Cpu.position] at h
    rw [hcpu, update_self, Cpu.position, ite_self]
    exact h

/-- The CPU comes back from the process it runs to the table entry after the dispatch. -/
theorem Stand.leave {l : ℤ} {R : Prop} {s t : Kernel 1} {a : Act 1} {r : Slot} {ii : ℤ} {k : ℕ}
    (h : Stand p q l R s) (hstep : step a s = some t) (ha : ∀ c, a ≠ .scan c)
    (hc : s.cpu 0 = .running r ii k) (hcpu : t.cpu = update s.cpu 0 (.scan ii k)) :
    Stand p q l (R ∨ Rejoins ⟨s, a, t⟩ p) t := by
  cases h with
  | running hc' hR hp =>
    obtain ⟨-, rfl, rfl⟩ := Cpu.running.inj (hc.symm.trans hc')
    refine .scan (by rw [hcpu, update_self]) ?_
    by_cases hp' : (t.proc p).Ready
    · exact .inr ⟨not_rejoined hstep ha hR hp', hp'⟩
    · exact .inl hp'
  | scan hc' => cases hc.symm.trans hc'
  | passed h =>
    refine .passed ?_
    rw [hc, Cpu.position] at h
    rw [hcpu, update_self, Cpu.position]
    exact h

/-- The loops have ended: the CPU starts over at the first table entry. -/
theorem Stand.release {l : ℤ} {R R' : Prop} {s t : Kernel 1} {ii : ℤ} {k : ℕ}
    (h : Stand p q l R s) (hc : s.cpu 0 = .scan ii k) (hl : ii ≠ l) (hcpu : t.cpu 0 = .idle) :
    Stand p q l R' t := by
  cases h with
  | running hc' => cases hc.symm.trans hc'
  | scan hc' => exact absurd (Cpu.scan.inj (hc.symm.trans hc')).1 hl
  | passed h =>
    refine .passed ?_
    rw [hc, Cpu.position, if_neg hl] at h
    rw [hcpu, Cpu.position]
    exact h

theorem Stand.iterate {l : ℤ} {R : Prop} {s : Kernel 1} {ii : ℤ} {k : ℕ} (h : Stand p q l R s)
    (hqp : q ≠ p) (hm : TurnMove q l ⟨s, .scan 0, schedulerStep 0 ii k s⟩)
    (hc : s.cpu 0 = .scan ii k) :
    Stand p q l (R ∨ Rejoins ⟨s, .scan 0, schedulerStep 0 ii k s⟩ p) (schedulerStep 0 ii k s) := by
  have hreach : Reachable s := hm.whole.reachable
  have hrange := (OnCpu.of_reachable hreach).inRange 0
  rw [hc] at hrange
  have htop := hm.highestlevel_eq ⟨ii, k, hc⟩
  cases hit : Mlfq.iterate s.proc s.ninlevel ii k with
  | next ii' k' =>
    have hnext : schedulerStep 0 ii k s = s.setCpu 0 (.scan ii' k') := by
      rw [schedulerStep_eq, hit]
    rw [hnext]
    exact h.next hqp hm.before htop hc hrange.2.2 hit _
  | dispatch r =>
    have hnext : schedulerStep 0 ii k s = Mlfq.dispatch 0 r ii s := by
      rw [schedulerStep_eq, hit]
    have hafter := hm.after.1
    rw [hnext] at hafter ⊢
    have hqr : r ≠ q := by
      rintro rfl
      rw [dispatch_proc, update_self] at hafter
      cases hafter
    refine h.dispatch hqp hqr ?_ hc hit
    rw [(iterate_dispatch hit).2.1, (iterate_dispatch hit).2.2.1, htop]
  | release =>
    have hii := iterate_release hit
    have hlevel : (s.proc q).level < nlayer := ((Shape.of_reachable hreach).level_mem q).2
    have hl : ii ≠ l := by
      have hq : (s.proc q).level = l := hm.before.2
      omega
    refine h.release hc hl ?_
    rw [schedulerStep_eq, hit, setLock_cpu, setCpu_cpu, update_self]

theorem Stand.move {l : ℤ} {R : Prop} {m : Move (Kernel 1) (Act 1)} (h : Stand p q l R m.src)
    (hqp : q ≠ p) (hm : TurnMove q l m) : Stand p q l (R ∨ Rejoins m p) m.dst := by
  have hreach := hm.whole.reachable
  obtain ⟨s, a, t⟩ := m
  have hstep : step a s = some t := hm.enabled
  cases cpuMove hstep with
  | stay hcpu ha => exact h.stay hreach hstep hcpu ha
  | @acquire c _ hc hcpu =>
    rw [Subsingleton.elim c 0] at hc hcpu
    exact h.acquire hc hcpu
  | @iterate c ii k hc =>
    obtain rfl : c = 0 := Subsingleton.elim c 0
    exact h.iterate hqp hm hc
  | @leave _ _ c r ii k hc hcpu hr ha =>
    rw [Subsingleton.elim c 0] at hc hcpu
    exact h.leave hstep ha hc hcpu

theorem Stand.run {l : ℤ} {R : Prop} (h : Run step s tr t) (hqp : q ≠ p) (hs : Stand p q l R s)
    (htr : ∀ m ∈ tr, TurnMove q l m) : Stand p q l (R ∨ ∃ m ∈ tr, Rejoins m p) t := by
  induction h with
  | nil => simpa using hs
  | @snoc u v tr a _ _ ih =>
    have hu := ih fun m hm ↦ htr m (List.mem_append_left _ hm)
    have hv := hu.move (m := ⟨u, a, v⟩) hqp (htr _ (by simp))
    have hrejoins : (R ∨ ∃ m ∈ tr ++ [⟨u, a, v⟩], Rejoins m p) ↔
        (R ∨ ∃ m ∈ tr, Rejoins m p) ∨ Rejoins ⟨u, a, v⟩ p := by
      simp only [List.mem_append, List.mem_singleton, or_and_right, exists_or, exists_eq_left,
        or_assoc]
    rwa [hrejoins]

/-- The moves from one dispatch of `p` at level `l` to a later one, without a starvation check and
with nothing but processes of level `l` dispatched, in which `p` uses up its slice or goes to
sleep. -/
structure Turn (p : Slot) (l : ℤ) (past mid : List (Move (Kernel 1) (Act 1)))
    (d₁ d₂ : Move (Kernel 1) (Act 1)) : Prop where
  history : Run step (boot 1) past d₁.src
  run : Run step d₁.src (d₁ :: mid) d₂.src
  last : step d₂.act d₂.src = some d₂.dst
  whole : ∀ m ∈ past ++ d₁ :: mid, m.act.Whole
  unchecked : ∀ m ∈ d₁ :: mid, m.act ≠ .boost 0
  first : Dispatches d₁ p
  again : Dispatches d₂ p
  level : ∀ m ∈ d₁ :: mid ++ [d₂], ∀ r, Dispatches m r → (m.src.proc r).level = l
  rejoins : ∃ m ∈ d₁ :: mid, Rejoins m p

/-- One process is dispatched at a time. -/
theorem dispatches_unique (hstep : step a s = some t) (hp : Dispatches ⟨s, a, t⟩ p)
    (hq : Dispatches ⟨s, a, t⟩ q) : p = q := by
  obtain ⟨c, ii, k, rfl, hc, hit, -⟩ := dispatches_inv hstep hp
  obtain ⟨c', ii', k', he, hc', hit', -⟩ := dispatches_inv hstep hq
  obtain rfl : c = c' := Act.scan.inj he
  obtain ⟨rfl, rfl⟩ := Cpu.scan.inj (hc.symm.trans hc')
  exact Iter.dispatch.inj (hit.symm.trans hit')

/-- A process waits at its level until it is dispatched there. -/
theorem waiting_of_run {l : ℤ} (hs : Reachable s) (h : Run step s tr t)
    (htr : ∀ m ∈ tr, m.act ≠ .boost 0 ∧ ¬(Dispatches m q ∧ (m.src.proc q).level = l))
    (hq : Waiting l (s.proc q)) : Waiting l (t.proc q) := by
  have hkeep := h.invariant (P := fun u ↦ Reachable u ∧ Waiting l (u.proc q))
    (G := fun m ↦ m.act ≠ .boost 0 ∧ ¬(Dispatches m q ∧ (m.src.proc q).level = l)) ?_ htr ⟨hs, hq⟩
  · exact hkeep.2
  rintro u a v ⟨hu, hq⟩ hstep ⟨hcheck, hnot⟩
  have hboost : ∀ c, a ≠ .boost c := by
    rintro c rfl
    exact hcheck (congrArg Act.boost (Subsingleton.elim c 0))
  exact ⟨hu.snoc hstep trivial, (waiting_step (.of_reachable hu) hstep hboost hq).resolve_right
    fun hd ↦ hnot ⟨hd, hq.2⟩⟩

namespace Turn

variable {l : ℤ}

theorem reachable (h : Turn p l past mid d₁ d₂) : ReachableWhole d₁.src :=
  ⟨_, past, rfl, h.history, fun m hm ↦ h.whole m (List.mem_append_left _ hm)⟩

/-- The run up to a move and the run after it. -/
theorem split (h : Turn p l past mid d₁ d₂) {m : Move (Kernel 1) (Act 1)} (hm : m ∈ d₁ :: mid) :
    ∃ pre post, d₁ :: mid = pre ++ m :: post ∧ Run step d₁.src pre m.src ∧
      step m.act m.src = some m.dst ∧ Run step m.dst post d₂.src := by
  obtain ⟨pre, post, he⟩ := List.append_of_mem hm
  have hrun := h.run
  rw [he] at hrun
  exact ⟨pre, post, he, hrun.split_at⟩

theorem reachable_last (h : Turn p l past mid d₁ d₂) : ReachableWhole d₂.src :=
  h.reachable.run h.run fun m hm ↦ h.whole m (List.mem_append_right _ hm)

/-- No process above the level can be RUNNABLE: it would be dispatched first. -/
theorem lowest (h : Turn p l past mid d₁ d₂) {m : Move (Kernel 1) (Act 1)} (hm : m ∈ d₁ :: mid)
    (r : Slot) (hr : (m.src.proc r).state = .runnable) : l ≤ (m.src.proc r).level := by
  obtain ⟨pre, post, he, hpre, hstep, hpost⟩ := h.split hm
  by_contra hlt
  have hmem : ∀ m' ∈ m :: post, m' ∈ d₁ :: mid := by
    intro m' hm'
    rw [he]
    exact List.mem_append_right _ hm'
  have hsrc : Reachable m.src := h.reachable.reachable.run hpre fun _ _ ↦ trivial
  -- no dispatch takes `r`, which is not of level `l`, so it waits on until `d₂`
  have hwait : Waiting (m.src.proc r).level (d₂.src.proc r) := by
    refine waiting_of_run hsrc (hpost.cons hstep) (fun m' hm' ↦ ?_) ⟨hr, rfl⟩
    refine ⟨h.unchecked m' (hmem m' hm'), fun ⟨hd, hlevel⟩ ↦ hlt ?_⟩
    rw [← hlevel, h.level m' (List.mem_append_left _ (hmem m' hm')) r hd]
  have hpl : (d₂.src.proc p).level = l := h.level d₂ (by simp) p h.again
  have hrp : ¬Dispatches d₂ r := by
    intro hd
    obtain rfl := dispatches_unique h.last h.again hd
    exact hlt (by rw [← hwait.2, hpl])
  obtain ⟨c, _, _, hscan, -⟩ := dispatches_inv h.last h.again
  have hafter := (waiting_step (.of_reachable h.reachable_last.reachable) h.last
    (fun c' ↦ by rw [hscan]; simp) hwait).resolve_right hrp
  have hle := level_le_of_dispatches h.reachable_last.counted h.last h.again hafter.1
  rw [hafter.2, hpl] at hle
  exact hlt hle

/-- A process that is not dispatched in between waits all the time. -/
theorem turnMove (h : Turn p l past mid d₁ d₂) (hqp : q ≠ p) (hq : Waiting l (d₁.src.proc q))
    (hnot : ∀ m ∈ mid, ¬Dispatches m q) : ∀ m ∈ d₁ :: mid, TurnMove q l m := by
  intro m hm
  obtain ⟨pre, post, he, hpre, hstep, hpost⟩ := h.split hm
  have hreach := h.reachable.reachable
  have hmem : ∀ m' ∈ pre ++ [m], m' ∈ d₁ :: mid := by
    intro m' hm'
    rw [he, ← List.singleton_append, ← List.append_assoc]
    exact List.mem_append_left _ hm'
  have hnot' : ∀ m' ∈ d₁ :: mid, ¬Dispatches m' q := by
    intro m' hm' hd
    rcases List.mem_cons.mp hm' with rfl | hm'
    · exact hqp (dispatches_unique (h.run.enabled m' (by simp)) hd h.first)
    · exact hnot m' hm' hd
  have hkeep : ∀ m' ∈ pre ++ [m], m'.act ≠ .boost 0 ∧
      ¬(Dispatches m' q ∧ (m'.src.proc q).level = l) := fun m' hm' ↦
    ⟨h.unchecked m' (hmem m' hm'), fun hd ↦ hnot' m' (hmem m' hm') hd.1⟩
  refine ⟨h.reachable.run hpre fun m' hm' ↦ ?_, hstep, ?_, ?_, h.lowest hm, ?_⟩
  · exact h.whole m' (List.mem_append_right _ (hmem m' (List.mem_append_left _ hm')))
  · exact waiting_of_run hreach hpre (fun m' hm' ↦ hkeep m' (List.mem_append_left _ hm')) hq
  · exact waiting_of_run hreach (hpre.snoc hstep) hkeep hq
  · exact h.level m (List.mem_append_left _ hm)

/-- The processes of a level take turns. -/
theorem dispatches_others (h : Turn p l past mid d₁ d₂) (hqp : q ≠ p)
    (hq : Waiting l (d₁.src.proc q)) : ∃ m ∈ mid, Dispatches m q := by
  by_contra hno
  push Not at hno
  obtain ⟨c, ii, k, -, hc, hit, -⟩ := dispatches_inv (h.run.enabled d₁ (by simp)) h.first
  rw [Subsingleton.elim c 0] at hc
  obtain ⟨hrun, hlevel, -, rfl⟩ := iterate_dispatch hit
  have hl : (d₁.src.proc p).level = l := h.level d₁ (by simp) p h.first
  obtain rfl : ii = l := hlevel.symm.trans hl
  -- before `d₁` the loop stands at `p`
  have hstart : Stand p q ii False d₁.src :=
    .scan hc (.inr ⟨not_false, ready_of_runnable hrun⟩)
  have hend := hstart.run h.run hqp (h.turnMove hqp hq hno)
  obtain ⟨c', ii', k', -, hc', hit', -⟩ := dispatches_inv h.last h.again
  rw [Subsingleton.elim c' 0] at hc'
  obtain ⟨hrun', hlevel', -, rfl⟩ := iterate_dispatch hit'
  have hl' : (d₂.src.proc p).level = ii := h.level d₂ (by simp) p h.again
  obtain rfl : ii' = ii := hlevel'.symm.trans hl'
  -- before `d₂` it stands at `p` again, but the slice of `p` has ended and `q` comes first
  cases hend with
  | running hcpu => cases hc'.symm.trans hcpu
  | scan _ hp =>
    rcases hp with hp | ⟨hnot, -⟩
    · exact hp (ready_of_runnable hrun')
    · exact hnot (.inr h.rejoins)
  | passed hlt =>
    rw [hc', Cpu.position, if_pos rfl, ahead_self] at hlt
    exact absurd hlt (Nat.not_lt_zero _)

end Turn

/-- **The order of dispatches on one CPU.** From where the scan stands when the scheduler takes
over, a dispatch takes the first RUNNABLE process of its level round the table. And as long as only
processes of one level are dispatched, they take turns: between two dispatches of a process that
uses up its slice or sleeps in between, every other process that was RUNNABLE at the level is
dispatched. -/
theorem dispatch_order :
    (∀ (u : Kernel 1) (tr : List (Move (Kernel 1) (Act 1))) (d : Move (Kernel 1) (Act 1))
      (q : Slot), Reachable u → Run step u tr d.src → (∀ m ∈ tr, m.act = .scan 0) →
      step d.act d.src = some d.dst → Dispatches d q →
        First u.proc (d.src.proc q).level ((u.cpu 0).position (d.src.proc q).level) q) ∧
    ∀ (past mid : List (Move (Kernel 1) (Act 1))) (d₁ d₂ : Move (Kernel 1) (Act 1)) (p q : Slot)
      (l : ℤ), Turn p l past mid d₁ d₂ → q ≠ p → Waiting l (d₁.src.proc q) →
        ∃ m ∈ mid, Dispatches m q :=
  ⟨fun _ _ _ _ hu hrun htr hstep hq ↦ first_of_dispatches hu hrun htr hstep hq,
    fun _ _ _ _ _ _ _ hturn hqp hq ↦ hturn.dispatches_others hqp hq⟩

/-! ## Not first in, first out -/

/-- The process joins the back of the queue of its level: it becomes RUNNABLE, by creation or by
waking up, or is moved down, or uses up a slice of the lowest level. -/
def Joins (m : Move (Kernel 1) (Act 1)) (q : Slot) : Prop :=
  (¬(m.src.proc q).Ready ∧ (m.dst.proc q).Ready) ∨ Demotes m q ∨
    (Dispatches m q ∧ (m.src.proc q).level = nlayer - 1 ∧
      toInt32 ((m.src.proc q).timeticks (m.src.proc q).level + 1)
        % mlpqTimeticks (m.src.proc q).level = 0)

/-- The process `q` has not joined its queue again since before `p` last joined its own, and `p`
has not been dispatched since. -/
def WaitsLonger (tr : List (Move (Kernel 1) (Act 1))) (q p : Slot) : Prop :=
  ∃ pre mid post jq jp, tr = pre ++ jq :: mid ++ jp :: post ∧ Joins jq q ∧ Joins jp p ∧
    (∀ m ∈ mid ++ jp :: post, ¬Joins m q) ∧ ∀ m ∈ post, ¬Joins m p ∧ ¬Dispatches m p

theorem not_joins_of_waiting {l : ℤ} {m : Move (Kernel 1) (Act 1)}
    (hsrc : Waiting l (m.src.proc q)) (hdst : Waiting l (m.dst.proc q)) :
    ¬Joins m q ∧ ¬Dispatches m q := by
  have hnot : ¬Dispatches m q := fun hd ↦ by cases hdst.1.symm.trans hd.2
  refine ⟨?_, hnot⟩
  rintro (⟨hready, -⟩ | hdemote | ⟨hd, -⟩)
  · exact hready (ready_of_runnable hsrc.1)
  · have hlevel : (m.dst.proc q).level = (m.src.proc q).level + 1 := hdemote
    rw [hsrc.2, hdst.2] at hlevel
    omega
  · exact hnot hd

section Example

instance (l : ℤ) (p : Proc) : Decidable (Waiting l p) := inferInstanceAs (Decidable (_ ∧ _))

/-- The first process forks a child and runs until the next tick. -/
def forkAndTick : List (Act 1) :=
  [.acquire 0, .scan 0, .resume 0, .allocproc 0, .fork 0, .timer 0, .yield 0]

/-- The child runs, wakes the first process and sleeps. -/
def childTurn : List (Act 1) :=
  [.scan 0, .scan 0, .resume 0, .wakeup 0 (.other 0), .sleep 0 (.other 1)] ++
    List.replicate 65 (.scan 0)

def AllAtTop (s : Kernel 1) : Prop := ∀ r, (s.proc r).level = 0

instance (s : Kernel 1) : Decidable (AllAtTop s) := inferInstanceAs (Decidable (∀ _, _))

theorem childTurn_replay : ((replay step forkAndTick (boot 1)).bind fun s ↦
    (step (.scan 0) s).bind fun u ↦ (step (.resume 0) u).bind fun v ↦
      (step (.sleep 0 (.other 0)) v).bind fun w ↦
        (replayIn step (fun v ↦ AllAtTop v) childTurn w).bind fun x ↦ (step (.scan 0) x).map fun t ↦
          ([(s.proc initproc).state, (u.proc initproc).state, (w.proc initproc).state,
            (x.proc initproc).state, (t.proc initproc).state],
            [decide (Waiting 0 (s.proc firstChild)), decide (AllAtTop s), decide (AllAtTop u),
              decide (AllAtTop v), decide (AllAtTop w)]))
    = some ([.runnable, .running, .sleeping, .runnable, .running],
        [true, true, true, true, true]) := by
  decide +kernel

theorem whole_childTurn :
    ∀ a ∈ forkAndTick ++ [.scan 0, .resume 0, .sleep 0 (.other 0)] ++ childTurn,
    a.Whole ∧ a ≠ .boost 0 := by
  simp [forkAndTick, childTurn, Act.Whole]

theorem exists_turn : ∃ (past mid : List (Move (Kernel 1) (Act 1)))
    (d₁ d₂ : Move (Kernel 1) (Act 1)), Turn initproc 0 past mid d₁ d₂ ∧
      Waiting 0 (d₁.src.proc firstChild) := by
  obtain ⟨s, hs, hrest⟩ := Option.bind_eq_some_iff.mp childTurn_replay
  obtain ⟨u, hu, hrest⟩ := Option.bind_eq_some_iff.mp hrest
  obtain ⟨v, hv, hrest⟩ := Option.bind_eq_some_iff.mp hrest
  obtain ⟨w, hw, hrest⟩ := Option.bind_eq_some_iff.mp hrest
  obtain ⟨x, hx, hrest⟩ := Option.bind_eq_some_iff.mp hrest
  obtain ⟨t, ht, hval⟩ := Option.map_eq_some_iff.mp hrest
  obtain ⟨⟨hs₀, hu₀, hw₀, hx₀, ht₀⟩, hs₁, htop_s, htop_u, htop_v, htop_w⟩ :
      ((s.proc initproc).state = .runnable ∧ (u.proc initproc).state = .running ∧
        (w.proc initproc).state = .sleeping ∧ (x.proc initproc).state = .runnable ∧
          (t.proc initproc).state = .running) ∧
        Waiting 0 (s.proc firstChild) ∧ AllAtTop s ∧ AllAtTop u ∧ AllAtTop v ∧ AllAtTop w := by
    simpa using hval
  obtain ⟨past, hpast, hact⟩ := exists_run_of_replay hs
  obtain ⟨tr, htr, hact', hok⟩ := exists_run_of_replayIn hx
  obtain ⟨htop_x, hsrc⟩ := htr.src_of_dst (P := AllAtTop) htop_w fun m hm ↦ by simpa using hok m hm
  have hacts : ∀ m ∈ past ++ ⟨s, .scan 0, u⟩ :: ⟨u, .resume 0, v⟩ ::
      ⟨v, .sleep 0 (.other 0), w⟩ :: tr, m.act.Whole ∧ m.act ≠ .boost 0 := by
    intro m hm
    refine whole_childTurn m.act ?_
    rw [← hact, ← hact']
    have hm' := List.mem_map_of_mem (f := Move.act) hm
    simpa using hm'
  refine ⟨past, ⟨u, .resume 0, v⟩ :: ⟨v, .sleep 0 (.other 0), w⟩ :: tr, ⟨s, .scan 0, u⟩,
    ⟨x, .scan 0, t⟩, ⟨hpast, ((htr.cons hw).cons hv).cons hu, ht, fun m hm ↦ (hacts m hm).1,
      fun m hm ↦ (hacts m (List.mem_append_right _ hm)).2, ⟨hs₀, hu₀⟩, ⟨hx₀, ht₀⟩, ?_,
      ⟨v, .sleep 0 (.other 0), w⟩, by simp, .inr (by simp [Proc.Ready, hw₀])⟩, hs₁⟩
  intro m hm r _
  have hlevels : AllAtTop m.src := by
    simp only [List.cons_append, List.mem_cons, List.mem_append, List.not_mem_nil, or_false] at hm
    rcases hm with rfl | rfl | rfl | hm | rfl
    exacts [htop_s, htop_u, htop_v, hsrc m hm, htop_x]
  exact hlevels r

/-- The child of the first process is dispatched between two turns of its parent. -/
theorem dispatch_order_childTurn :
    ∃ mid : List (Move (Kernel 1) (Act 1)), ∃ m ∈ mid, Dispatches m firstChild := by
  obtain ⟨past, mid, d₁, d₂, hturn, hwait⟩ := exists_turn
  exact ⟨mid, dispatch_order.2 past mid d₁ d₂ initproc firstChild 0 hturn (by decide) hwait⟩

/-- The first process forks two children and sleeps, and so does the first child. -/
def twoSleepers : List (Act 1) :=
  [.acquire 0, .scan 0, .resume 0, .allocproc 0, .fork 0, .allocproc 0, .fork 0,
    .sleep 0 (.other 0), .scan 0, .scan 0, .resume 0, .sleep 0 (.other 1), .scan 0, .scan 0,
    .resume 0]

/-- The second child sleeps and the scan goes round the table. -/
def roundToFirst : List (Act 1) := .sleep 0 (.other 2) :: List.replicate 64 (.scan 0)

theorem outOfOrder_replay : ((replay step twoSleepers (boot 1)).bind fun s ↦
    (step (.wakeup 0 (.other 1)) s).bind fun u ↦ (step (.wakeup 0 (.other 0)) u).bind fun v ↦
      (replayIn step (fun v ↦ Waiting 0 (v.proc initproc) ∧ Waiting 0 (v.proc firstChild))
        roundToFirst v).bind fun w ↦ (step (.scan 0) w).map fun t ↦
          ([(s.proc firstChild).state, (u.proc initproc).state, (t.proc initproc).state],
            [decide (Waiting 0 (u.proc firstChild)), decide (Waiting 0 (v.proc initproc)),
              decide (Waiting 0 (v.proc firstChild))]))
    = some ([.sleeping, .sleeping, .running], [true, true, true]) := by
  decide +kernel

theorem boost_notMem_outOfOrder : Act.boost 0 ∉
    twoSleepers ++ [.wakeup 0 (.other 1), .wakeup 0 (.other 0)] ++ roundToFirst := by
  decide +kernel

/-- The first child is woken before the first process and dispatched after it. -/
theorem not_first_in_first_out : ¬∀ (tr : List (Move (Kernel 1) (Act 1)))
    (d : Move (Kernel 1) (Act 1)) (p q : Slot), Run step (boot 1) tr d.src →
      (∀ m ∈ tr, m.act ≠ .boost 0) → step d.act d.src = some d.dst → Dispatches d p → q ≠ p →
        Waiting (d.src.proc p).level (d.src.proc q) → ¬WaitsLonger tr q p := by
  intro hall
  obtain ⟨s, hs, hrest⟩ := Option.bind_eq_some_iff.mp outOfOrder_replay
  obtain ⟨u, hu, hrest⟩ := Option.bind_eq_some_iff.mp hrest
  obtain ⟨v, hv, hrest⟩ := Option.bind_eq_some_iff.mp hrest
  obtain ⟨w, hw, hrest⟩ := Option.bind_eq_some_iff.mp hrest
  obtain ⟨t, ht, hval⟩ := Option.map_eq_some_iff.mp hrest
  obtain ⟨⟨hs₁, hu₀, ht₀⟩, hu₁, hv₀, hv₁⟩ : ((s.proc firstChild).state = .sleeping ∧
      (u.proc initproc).state = .sleeping ∧ (t.proc initproc).state = .running) ∧
        Waiting 0 (u.proc firstChild) ∧ Waiting 0 (v.proc initproc) ∧
          Waiting 0 (v.proc firstChild) := by
    simpa using hval
  obtain ⟨pre, hpre, hact⟩ := exists_run_of_replay hs
  obtain ⟨post, hpost, hact', hok⟩ := exists_run_of_replayIn hw
  have hwait : ∀ m ∈ post, Waiting 0 (m.dst.proc initproc) ∧ Waiting 0 (m.dst.proc firstChild) :=
    fun m hm ↦ by simpa using hok m hm
  obtain ⟨⟨hw₀, hw₁⟩, hsrc⟩ := hpost.src_of_dst
    (P := fun v ↦ Waiting 0 (v.proc initproc) ∧ Waiting 0 (v.proc firstChild)) ⟨hv₀, hv₁⟩ hwait
  let jq : Move (Kernel 1) (Act 1) := ⟨s, .wakeup 0 (.other 1), u⟩
  let jp : Move (Kernel 1) (Act 1) := ⟨u, .wakeup 0 (.other 0), v⟩
  have hrun : Run step (boot 1) (pre ++ jq :: [] ++ jp :: post) w := by
    have hmid := (hpost.cons hv).cons hu
    simpa using hpre.append hmid
  refine hall _ ⟨w, .scan 0, t⟩ initproc firstChild hrun ?_ ht ⟨hw₀.1, ht₀⟩ (by decide) ?_
    ⟨pre, [], post, jq, jp, rfl, ?_, ?_, ?_, ?_⟩
  · intro m hm hb
    have hmem : m.act ∈ twoSleepers ++ [.wakeup 0 (.other 1), .wakeup 0 (.other 0)] ++
        roundToFirst := by
      rw [← hact, ← hact']
      have hm' := List.mem_map_of_mem (f := Move.act) hm
      simpa [jq, jp] using hm'
    exact boost_notMem_outOfOrder (hb ▸ hmem)
  · rw [hw₀.2]
    exact hw₁
  · exact .inl ⟨by simp [Proc.Ready, jq, hs₁], ready_of_runnable hu₁.1⟩
  · exact .inl ⟨by simp [Proc.Ready, jp, hu₀], ready_of_runnable hv₀.1⟩
  · intro m hm
    rcases List.mem_cons.mp hm with rfl | hm
    · exact (not_joins_of_waiting hu₁ hv₁).1
    · exact (not_joins_of_waiting (hsrc m hm).2 (hwait m hm).2).1
  · intro m hm
    exact not_joins_of_waiting (hsrc m hm).1 (hwait m hm).1

end Example

end CS537.Mlfq
