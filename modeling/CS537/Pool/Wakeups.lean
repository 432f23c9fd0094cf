import CS537.Pool.Buffer

/-!
# No wakeup is lost

A waiting master means a full buffer: a worker that makes room signals it. A connection in the
buffer means that some worker is not waiting: the put that brought it wakes one, and a worker waits
only when it has seen the buffer empty.
-/

namespace CS537.Pool

open Function Transition

variable {numthread : ℕ} {numbuff : ℤ} {s t : Server numthread} {a : Act numthread}

/-- Whoever waits has reason to. -/
structure Alert (numbuff : ℤ) (s : Server numthread) : Prop where
  worker : 0 < s.count → ∃ i, s.worker i ≠ .wait
  master : ∀ connfd, s.master = .wait connfd → s.count = numbuff

/-- A signal on `fill` leaves some worker that does not wait. -/
theorem Server.Wakes.exists_ne_wait (hnumthread : 1 ≤ numthread) {S : Finset (Fin numthread)}
    (hS : s.Wakes S) : ∃ i, (if i ∈ S then .woken else s.worker i) ≠ .wait := by
  by_cases hwait : ∃ i, s.worker i = .wait
  · obtain ⟨i, hi⟩ := hS.2 hwait
    refine ⟨i, ?_⟩
    rw [if_pos hi]
    exact Worker.noConfusion
  · push Not at hwait
    refine ⟨⟨0, hnumthread⟩, ?_⟩
    split
    · exact Worker.noConfusion
    · exact hwait _

/-- A worker that is put somewhere else than to wait. -/
theorem exists_update_ne_wait {w : Fin numthread → Worker} (i : Fin numthread) {x : Worker}
    (hx : x ≠ .wait) : ∃ j, update w i x j ≠ .wait :=
  ⟨i, by rwa [update_self]⟩

theorem Master.signal_ne_wait (x : Master) (connfd : ℤ) : x.signal ≠ .wait connfd := by
  cases x <;> exact Master.noConfusion

theorem Alert.trans (hnumthread : 1 ≤ numthread) (h : Alert numbuff s)
    (ht : Trans numbuff s a t) : Alert numbuff t := by
  cases ht with
  | accept hm => exact ⟨h.worker, fun _ hw ↦ Master.noConfusion hw⟩
  | full hm hfull => exact ⟨h.worker, fun _ _ ↦ hfull⟩
  -- the put comes with a signal on `fill`
  | put hm hroom hS =>
    exact ⟨fun _ ↦ hS.exists_ne_wait hnumthread, fun _ hw ↦ Master.noConfusion hw⟩
  -- a worker waits only after it has seen the buffer empty
  | empty hi hempty => exact ⟨fun hpos ↦ absurd hempty hpos.ne', h.master⟩
  -- the worker that takes goes on, and the signal on `empty` wakes a waiting master
  | @take i hi hfill =>
    exact ⟨fun _ ↦ exists_update_ne_wait i Worker.noConfusion,
      fun _ hw ↦ absurd hw (Master.signal_ne_wait _ _)⟩
  | @handled i _ hi => exact ⟨fun _ ↦ exists_update_ne_wait i Worker.noConfusion, h.master⟩
  | @spuriousFill i hi => exact ⟨fun _ ↦ exists_update_ne_wait i Worker.noConfusion, h.master⟩
  | spuriousEmpty hm => exact ⟨h.worker, fun _ hw ↦ Master.noConfusion hw⟩

theorem Started.alert (h : Started s) : Alert numbuff s := by
  refine ⟨fun hpos ↦ absurd h.count hpos.ne', fun connfd hw ↦ ?_⟩
  rw [h.master] at hw
  cases hw

/-- **No lost wakeup.** No run reaches a state with a connection in the buffer and every worker
waiting for one, or a state with room in the buffer and the master waiting for it, whatever the
workers do. -/
theorem no_lost_wakeup (hnumthread : 1 ≤ numthread) {s₀ : Server numthread} (h₀ : Started s₀)
    {tr : List (Move (Server numthread) (Act numthread))} (hrun : Run (step numbuff) s₀ tr s) :
    ¬(0 < s.count ∧ ∀ i, s.worker i = .wait) ∧
      ¬(s.count < numbuff ∧ ∃ connfd, s.master = .wait connfd) := by
  have halert : Alert numbuff s :=
    hrun.invariant (G := fun _ ↦ True) (fun h hstep _ ↦ h.trans hnumthread (trans_of_step hstep))
      (fun _ _ ↦ trivial) h₀.alert
  constructor
  · rintro ⟨hpos, hwait⟩
    obtain ⟨i, hi⟩ := halert.worker hpos
    exact hi (hwait i)
  · rintro ⟨hroom, connfd, hm⟩
    exact hroom.ne (halert.master connfd hm)

/-- The signalled worker has not run yet, and the master already waits for room. -/
theorem no_lost_wakeup_late : ∃ s tr, Run (step 1) oneBuffer tr s ∧ s.count = 1 ∧
    (∃ connfd, s.master = .wait connfd) ∧ ¬∀ i, s.worker i = .wait := by
  obtain ⟨s, hs⟩ := Option.isSome_iff_exists.mp
    (show (replay (step 1) [.worker 0, .accept 7, .master {0}, .accept 8, .master ∅]
      oneBuffer).isSome by decide +kernel)
  have hend : (replay (step 1) [.worker 0, .accept 7, .master {0}, .accept 8, .master ∅]
      oneBuffer).map (fun s ↦ (s.count, s.master)) = some (1, .wait 8) := by
    decide +kernel
  rw [hs, Option.map_some, Option.some.injEq, Prod.mk.injEq] at hend
  obtain ⟨hcount, hmaster⟩ := hend
  obtain ⟨tr, htr, -⟩ := exists_run_of_replay hs
  obtain ⟨hworker, -⟩ := no_lost_wakeup (by decide) started_oneBuffer htr
  refine ⟨s, tr, htr, hcount, ⟨8, hmaster⟩, fun hwait ↦ hworker ⟨?_, hwait⟩⟩
  rw [hcount]
  exact one_pos

end CS537.Pool
