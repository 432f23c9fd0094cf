import CS537.Mlfq.Handshake
import CS537.Mlfq.Slices

/-!
# Every exited process is reaped once

A process is the time from one `allocproc` of its slot to the next. Its slot is free when `wait` has
returned its pid, so that no other `wait` finds it. The caller is the parent at that time: the
process that forked it, if it has not exited, or init. Pids do not tell processes apart, since
`nextpid` wraps.
-/

namespace CS537.Mlfq

open Function Transition

variable {ncpu : ℕ} {s t : Kernel ncpu} {a : Act ncpu} {c : Fin ncpu} {i p q : Slot}

/-! ## Every process is returned once -/

/-- The move is a round of `wait` by the process in `q` that reaps the slot `i` and returns the
pid. -/
def Returns (m : Move (Kernel ncpu) (Act ncpu)) (q i : Slot) (pid : ℤ) : Prop :=
  ∃ c, (m.act = .wait c ∧ m.src.caller c = some q ∧ waitScan q m.src = .reap i pid) ∨
    (m.act = .resume c ∧ (∃ ii p, m.src.cpu c = .running q ii p) ∧
      (m.src.proc q).context.pos = .wait ∧
        waitScan q ((m.src.setChan q none).setPos q .user) = .reap i pid)

theorem waitScan_reap_pid {pid : ℤ} (h : waitScan q s = .reap p pid) : pid = (s.proc p).pid := by
  rw [waitScan] at h
  split at h
  · obtain ⟨rfl, rfl⟩ := WaitResult.reap.inj h
    rfl
  · split at h <;> cases h

/-- What a returned pid says: a zombie child of the caller had it. -/
theorem returns_src {pid : ℤ} (h : Returns ⟨s, a, t⟩ q i pid) :
    (s.proc i).state = .zombie ∧ (s.proc i).parent = some q ∧ (s.proc i).pid = pid := by
  obtain ⟨c, ⟨-, -, hscan⟩ | ⟨-, -, -, hscan⟩⟩ := h
  · obtain ⟨hparent, hzombie⟩ := waitScan_reap hscan
    exact ⟨hzombie, hparent, (waitScan_reap_pid hscan).symm⟩
  · obtain ⟨hparent, hzombie⟩ := waitScan_reap hscan
    have hpid := waitScan_reap_pid hscan
    -- on the way out of `sleep` only `chan` and the position of the caller have changed
    have hid := setPos_sameId (s := s.setChan q none) q i .user
    rw [setPos_state] at hzombie
    rw [hid.parent] at hparent
    rw [hid.pid] at hpid
    rw [Kernel.setChan, setProc_proc] at hparent hzombie hpid
    rcases eq_or_ne i q with rfl | hne
    · rw [update_self] at hparent hzombie hpid
      exact ⟨hzombie, hparent, hpid.symm⟩
    · rw [update_of_ne hne] at hparent hzombie hpid
      exact ⟨hzombie, hparent, hpid.symm⟩

theorem returns_dst {pid : ℤ} (hstep : step a s = some t) (h : Returns ⟨s, a, t⟩ q i pid) :
    (t.proc i).state = .unused := by
  obtain ⟨c, ⟨ha, hq, hscan⟩ | ⟨ha, ⟨ii, k, hc⟩, hpos, hscan⟩⟩ := h
  · obtain rfl : a = .wait c := ha
    cases trans_of_step hstep with
    | @wait _ r hr =>
      obtain rfl := Option.some.inj (hr.symm.trans hq)
      have hscan' : waitScan r s = .reap i pid := hscan
      rw [wait, hscan', setLock_proc, setProc_proc, update_self]
  · obtain rfl : a = .resume c := ha
    cases trans_of_step hstep with
    | @resume _ r ii' k' hc' =>
      obtain ⟨rfl, -⟩ := Cpu.running.inj (hc'.symm.trans hc)
      have hpos' : (s.proc r).context.pos = .wait := hpos
      have hscan' : waitScan r ((s.setChan r none).setPos r .user) = .reap i pid := hscan
      simp only [resume, hpos']
      rw [wait, hscan', setLock_proc, setProc_proc, update_self]

/-- A slot that has been freed is free until it is allocated again. -/
theorem unused_run {tr : List (Move (Kernel ncpu) (Act ncpu))} (hs : Reachable s)
    (h : Run step s tr t) (hfree : (s.proc i).state = .unused) (htr : ∀ m ∈ tr, ¬Creates m i) :
    (t.proc i).state = .unused := by
  refine (h.invariant (P := fun s ↦ Shape s ∧ (s.proc i).state = .unused)
    (G := fun m ↦ ¬Creates m i) ?_ htr ⟨.of_reachable hs, hfree⟩).2
  intro s a t hs hstep hcreate
  refine ⟨hs.1.step hstep, ?_⟩
  by_contra hused
  rcases pid_step hs.1 hstep hused with ⟨hold, -⟩ | hc
  · exact hold hs.2
  · exact hcreate hc

/-! ### Parents -/

/-- The move publishes the child in the slot `i` of the process in `q`. -/
def Publishes (m : Move (Kernel ncpu) (Act ncpu)) (q i : Slot) : Prop :=
  ∃ c, (m.act = .forkPublish c ∨ m.act = .fork c) ∧ m.src.child c = some (q, i)

/-- Neither free, nor being set up, nor ended. -/
def Live (p : Proc) : Prop := p.state ≠ .unused ∧ p.state ≠ .embryo ∧ p.state ≠ .zombie

/-- The process in the slot is a child of init or of the living process in `q`. -/
def HasParent (i q : Slot) (s : Kernel ncpu) : Prop :=
  (s.proc i).parent = some initproc ∨ (s.proc i).parent = some q ∧ Live (s.proc q)

/-- A living process lives on, or it exits. -/
theorem live_step (hs : Shape s) (hstep : step a s = some t) (hq : Live (s.proc q)) :
    Live (t.proc q) ∨ ∃ c, a = .exit c ∧ s.caller c = some q := by
  have hlive : Edge (s.proc q).state (t.proc q).state → Live (t.proc q) :=
    fun he ↦ he.live hq.1 hq.2.1 hq.2.2
  cases lifeMove hs hstep q with
  | same he => exact .inl (hlive he)
  | create _ hsrc => exact absurd hsrc hq.1
  | publish _ hchild => exact absurd (hs.copy_embryo (child_eq_some hchild).2).1 hq.2.1
  | exit ha hc => exact .inr ⟨_, ha, hc⟩
  | orphan _ _ _ _ he => exact .inl (hlive he)
  | kill _ _ he => exact .inl (hlive he)
  | fault _ _ hstate => exact .inl (hlive (hstate ▸ .stay _))
  | reap _ hsrc => exact absurd hsrc hq.2.2

/-- A process that keeps its parent field: when that parent exits, it is handed to init. -/
theorem HasParent.keep (h : HasParent i q s) (hs : Shape s) (hstep : step a s = some t)
    (hsame : (t.proc i).parent = (s.proc i).parent) : HasParent i q t := by
  rcases h with hinit | ⟨hparent, hlive⟩
  · exact .inl (hsame.trans hinit)
  rcases live_step hs hstep hlive with hlive' | ⟨c, rfl, hq⟩
  · exact .inr ⟨hsame.trans hparent, hlive'⟩
  · obtain ⟨-, rfl⟩ := exit_inv hstep hq
    refine .inl ?_
    rw [exit_parent, if_pos hparent]

/-- Once published, a process has its parent or init as its parent, until its slot is free. -/
def Placed (i q : Slot) (s : Kernel ncpu) : Prop :=
  (s.proc i).state = .unused ∨ (s.proc i).state ≠ .embryo ∧ HasParent i q s

theorem Placed.step (h : Placed i q s) (hs : Shape s) (hr : Rooted s) (hstep : step a s = some t)
    (hcreate : ¬Creates ⟨s, a, t⟩ i) : Placed i q t := by
  by_cases hfree : (t.proc i).state = .unused
  · exact .inl hfree
  rcases pid_step hs hstep hfree with ⟨hused, -⟩ | hc
  swap
  · exact absurd hc hcreate
  obtain ⟨hne, hparent⟩ := h.resolve_left hused
  have hedge : Edge (s.proc i).state (t.proc i).state → (t.proc i).state ≠ .embryo :=
    fun he hemb ↦ (he.free (.inr hemb)).elim hused hne
  refine .inr ?_
  cases lifeMove hs hstep i with
  | same he hid => exact ⟨hedge he, hparent.keep hs hstep hid.parent⟩
  | create _ hsrc => exact absurd hsrc hused
  | publish _ hchild => exact absurd (hs.copy_embryo (child_eq_some hchild).2).1 hne
  | exit _ _ hdst _ hpar =>
    rw [if_neg (hr.other i)] at hpar
    exact ⟨by simp [hdst], hparent.keep hs hstep hpar⟩
  | orphan _ _ _ _ he _ hpar => exact ⟨hedge he, .inl hpar⟩
  | kill _ _ he _ hpar => exact ⟨hedge he, hparent.keep hs hstep hpar⟩
  | fault _ _ hstate _ hpar => exact ⟨hstate ▸ hne, hparent.keep hs hstep hpar⟩
  | reap _ _ _ hdst => exact absurd hdst hfree

theorem publishes_dst (hs : Shape s) (hstep : step a s = some t) (h : Publishes ⟨s, a, t⟩ q i) :
    Placed i q t := by
  obtain ⟨c, ha, hchild⟩ := h
  have hlive : Live (s.proc q) := by simp [Live, hs.child_running hchild]
  have hpublished : ((forkPublish q i s).proc i).state = .runnable ∧
      ((forkPublish q i s).proc i).parent = some q := by
    rw [forkPublish, setPos_state, (setPos_sameId q i _).parent, setProc_proc, update_self]
    exact ⟨rfl, rfl⟩
  -- `fork` in one step sets the same fields, and counts
  have hdst : (t.proc i).state = .runnable ∧ (t.proc i).parent = some q := by
    rcases ha with ha | ha
    · obtain rfl : a = .forkPublish c := ha
      obtain ⟨⟨r, np⟩, hr, rfl⟩ := Option.map_eq_some_iff.mp hstep
      obtain ⟨rfl, rfl⟩ := Prod.mk.inj (Option.some.inj (hr.symm.trans hchild))
      exact hpublished
    · obtain rfl : a = .fork c := ha
      obtain ⟨⟨r, np⟩, hr, rfl⟩ := Option.map_eq_some_iff.mp hstep
      obtain ⟨rfl, rfl⟩ := Prod.mk.inj (Option.some.inj (hr.symm.trans hchild))
      change ((forkCount r (forkPublish r np s)).proc np).state = .runnable ∧
        ((forkCount r (forkPublish r np s)).proc np).parent = some r
      rw [forkCount, setPos_state, (setPos_sameId r np _).parent, addLevel_proc]
      exact hpublished
  refine .inr ⟨by simp [hdst.1], .inr ⟨hdst.2, ?_⟩⟩
  rcases live_step hs hstep hlive with hkeep | ⟨c', hexit, -⟩
  · exact hkeep
  · rcases ha with ha | ha <;> cases ha.symm.trans hexit

/-- A process that has been set up was published after its slot was last allocated. -/
theorem exists_publishes {tr : List (Move (Kernel ncpu) (Act ncpu))}
    (h : Run step (boot ncpu) tr s) (hinit : i ≠ initproc) (hu : (s.proc i).state ≠ .unused)
    (he : (s.proc i).state ≠ .embryo) : ∃ pre f mid q, tr = pre ++ f :: mid ∧
      Publishes f q i ∧ ∀ m ∈ mid, ¬Creates m i := by
  generalize hb : boot ncpu = b at h
  induction h with
  | nil =>
    subst hb
    exact absurd ((boot_frame i).2.2.mpr hinit) hu
  | @snoc v w tr a hrun hstep ih =>
    subst hb
    have hs : Shape v := .of_reachable ⟨_, _, rfl, hrun, fun _ _ ↦ trivial⟩
    have hcreate : ¬Creates ⟨v, a, w⟩ i := fun hc ↦ he hc.2
    by_cases hpub : ∃ q, Publishes ⟨v, a, w⟩ q i
    · obtain ⟨q, hq⟩ := hpub
      exact ⟨tr, _, [], q, rfl, hq, by simp⟩
    -- any other move finds the process already set up
    have hedge : Edge (v.proc i).state (w.proc i).state →
        (v.proc i).state ≠ .unused ∧ (v.proc i).state ≠ .embryo := by
      intro hedge
      generalize (v.proc i).state = x at hedge
      generalize (w.proc i).state = y at hedge hu he
      cases hedge with
      | stay => exact ⟨hu, he⟩
      | fail => exact absurd rfl hu
      | _ => simp
    have hold : (v.proc i).state ≠ .unused ∧ (v.proc i).state ≠ .embryo := by
      cases lifeMove hs hstep i with
      | same he' => exact hedge he'
      | create _ hsrc hdst => exact absurd ⟨hsrc, hdst⟩ hcreate
      | publish ha hchild => exact absurd ⟨_, _, ha, hchild⟩ hpub
      | exit _ hq => simp [hs.caller_running hq]
      | orphan _ _ _ _ he' => exact hedge he'
      | kill _ _ he' => exact hedge he'
      | fault _ _ hstate => exact ⟨hstate ▸ hu, hstate ▸ he⟩
      | reap _ _ _ hdst => exact absurd hdst hu
    obtain ⟨pre, f, mid, q, rfl, hq, hmid⟩ := ih hold.1 hold.2
    refine ⟨pre, f, mid ++ [⟨v, a, w⟩], q, by simp, hq, fun m hm ↦ ?_⟩
    rcases List.mem_append.mp hm with hm | hm
    · exact hmid m hm
    · rwa [List.mem_singleton.mp hm]

section Run

variable {tr pre mid post : List (Move (Kernel ncpu) (Act ncpu))}
variable {m f : Move (Kernel ncpu) (Act ncpu)}

theorem reachable_of_run (h : Run step (boot ncpu) tr s) : Reachable s :=
  ⟨_, tr, rfl, h, fun _ _ ↦ trivial⟩

theorem Placed.run (hplaced : Placed i q s) (hs : Reachable s) (h : Run Mlfq.step s tr t)
    (htr : ∀ m ∈ tr, ¬Creates m i) : Placed i q t :=
  (h.invariant (P := fun s ↦ Reachable s ∧ Placed i q s) (G := fun m ↦ ¬Creates m i)
    (fun hs hstep hm ↦ ⟨hs.1.snoc hstep trivial, hs.2.step (.of_reachable hs.1)
      (handshake_of_reachable hs.1).1 hstep hm⟩) htr ⟨hs, hplaced⟩).2

/-- As long as the process names the one who forked it, that slot has not been allocated again. -/
theorem Placed.same_parent (hplaced : Placed i q s) (hs : Reachable s) (h : Run Mlfq.step s tr t)
    (htr : ∀ m ∈ tr, ¬Creates m i) (hused : (t.proc i).state ≠ .unused)
    (hown : (t.proc i).parent = some q) : q = initproc ∨ ∀ m ∈ tr, ¬Creates m q := by
  by_contra hnot
  rw [not_or] at hnot
  obtain ⟨hq, hall⟩ := hnot
  refine hall fun m hm hc ↦ ?_
  obtain ⟨pre, post, rfl⟩ := List.append_of_mem hm
  obtain ⟨hpre, hstep, hpost⟩ := h.split_at
  have hsrc : Reachable m.src := hs.run hpre fun _ _ ↦ trivial
  -- the slot of the parent was free, so that init had taken over
  have hinit : Placed i initproc m.src :=
    (hplaced.run hs hpre fun m' hm' ↦ htr m' (List.mem_append_left _ hm')).imp_right
      fun ⟨hne, hparent⟩ ↦ ⟨hne, .inl (hparent.resolve_right fun ⟨_, hlive⟩ ↦ hlive.1 hc.1)⟩
  have hplaced' := hinit.run hsrc (hpost.cons hstep)
    fun m' hm' ↦ htr m' (List.mem_append_right _ hm')
  rcases hplaced' with hfree | ⟨-, hparent | ⟨hparent, -⟩⟩
  · exact hused hfree
  · exact hq (Option.some.inj (hown.symm.trans hparent))
  · exact hq (Option.some.inj (hown.symm.trans hparent))

theorem returned_once {m' : Move (Kernel ncpu) (Act ncpu)} {q' : Slot} {pid pid' : ℤ}
    (h : Run step (boot ncpu) (pre ++ m :: mid ++ m' :: post) t) (hm : Returns m q i pid)
    (hm' : Returns m' q' i pid') : ∃ m'' ∈ mid, Creates m'' i := by
  obtain ⟨hpre, -, -⟩ := h.split_at
  obtain ⟨hsrc, hstep, hmid⟩ := hpre.split_at
  have hreach := (reachable_of_run hsrc).snoc hstep trivial
  by_contra hnone
  simp only [not_exists, not_and] at hnone
  have hfree := unused_run hreach hmid (returns_dst hstep hm) hnone
  obtain ⟨hzombie, -⟩ := returns_src hm'
  cases hfree.symm.trans hzombie

theorem returned_to_parent {pid : ℤ} (h : Run step (boot ncpu) (pre ++ m :: post) t)
    (hm : Returns m q i pid) : (m.src.proc i).pid = pid ∧ (m.src.proc i).parent = some q ∧
      ∃ past f mid q₀, pre = past ++ f :: mid ∧ Publishes f q₀ i ∧ (∀ m' ∈ mid, ¬Creates m' i) ∧
        (q = initproc ∨ q = q₀ ∧ ∀ m' ∈ mid, ¬Creates m' q) := by
  obtain ⟨hpre, -, -⟩ := h.split_at
  obtain ⟨hzombie, hparent, hpid⟩ := returns_src hm
  have hinit : i ≠ initproc := by
    rintro rfl
    exact (handshake_of_reachable (reachable_of_run hpre)).1.zombie hzombie
  obtain ⟨past, f, mid, q₀, rfl, hpub, hmid⟩ :=
    exists_publishes hpre hinit (by simp [hzombie]) (by simp [hzombie])
  refine ⟨hpid, hparent, past, f, mid, q₀, rfl, hpub, hmid, ?_⟩
  obtain ⟨hpast, hf, hrun⟩ := hpre.split_at
  have hreach := reachable_of_run hpast
  have hplaced := publishes_dst (.of_reachable hreach) hf hpub
  have hreach' : Reachable f.dst := hreach.snoc hf trivial
  -- the parent field still names the one who forked, or init took over
  rcases hplaced.run hreach' hrun hmid with hfree | ⟨-, hroot | ⟨hown, -⟩⟩
  · cases hfree.symm.trans hzombie
  · exact .inl (Option.some.inj (hparent.symm.trans hroot))
  · obtain rfl := Option.some.inj (hparent.symm.trans hown)
    exact (hplaced.same_parent hreach' hrun hmid (by simp [hzombie]) hparent).imp_right
      fun hsame ↦ ⟨rfl, hsame⟩

end Run

/-- **The handshake of `exit` and `wait`.** No reachable state has a process asleep in `wait`
without a child or beside a zombie child. In every run, `wait` returns the pid of every process at
most once: between two that reap the same slot, the slot is allocated again. The caller is the
parent of the process at that time: init, or the process that forked it, whose slot has not been
allocated again meanwhile. -/
theorem exit_wait_handshake (ncpu : ℕ) :
    (∀ s : Kernel ncpu, Reachable s → ∀ q, InWait (s.proc q) →
      (s.proc q).chan = some (.proc q) ∧ (∃ p, (s.proc p).parent = some q) ∧
        ∀ p, (s.proc p).parent = some q → (s.proc p).state ≠ .zombie) ∧
    ∀ (tr : List (Move (Kernel ncpu) (Act ncpu))) (t : Kernel ncpu), Run step (boot ncpu) tr t →
      (∀ pre mid post m₁ m₂ q₁ q₂ i pid₁ pid₂, tr = pre ++ m₁ :: mid ++ m₂ :: post →
        Returns m₁ q₁ i pid₁ → Returns m₂ q₂ i pid₂ → ∃ m ∈ mid, Creates m i) ∧
      ∀ pre m post q i pid, tr = pre ++ m :: post → Returns m q i pid →
        (m.src.proc i).pid = pid ∧ (m.src.proc i).parent = some q ∧
          ∃ past f mid q₀, pre = past ++ f :: mid ∧ Publishes f q₀ i ∧
            (∀ m' ∈ mid, ¬Creates m' i) ∧
              (q = initproc ∨ q = q₀ ∧ ∀ m' ∈ mid, ¬Creates m' q) := by
  refine ⟨fun s h q hq ↦ ?_, fun tr t h ↦ ⟨?_, ?_⟩⟩
  · obtain ⟨-, hh⟩ := handshake_of_reachable h
    exact ⟨hh.chan q hq, hh.child q hq, fun p ↦ hh.alive q p hq⟩
  · rintro pre mid post m₁ m₂ q₁ q₂ i pid₁ pid₂ rfl
    exact returned_once h
  · rintro pre m post q i pid rfl
    exact returned_to_parent h

section Example

/-- The first process forks a child and waits. -/
def forkAndWait : List (Act 1) :=
  [.acquire 0, .scan 0, .resume 0, .allocproc 0, .fork 0, .wait 0]

/-- The child exits, and the scan goes round the table. -/
def childExits : List (Act 1) :=
  [.scan 0, .scan 0, .resume 0, .exit 0] ++ List.replicate 66 (.scan 0)

theorem childExits_replay : ((replay step forkAndWait (boot 1)).bind fun s ↦
    (replay step childExits s).bind fun u ↦ (step (.resume 0) u).map fun _ ↦
      (((s.proc initproc).state, (s.proc initproc).context.pos), u.cpu 0,
        (u.proc initproc).context.pos,
        waitScan initproc ((u.setChan initproc none).setPos initproc .user)))
    = some ((.sleeping, .wait), .running initproc 0 0, .wait, .reap ⟨1, by decide⟩ 2) := by
  decide +kernel

/-- The first process sleeps until its child has exited, and `wait` returns 2. -/
theorem exit_wait_handshake_child :
    (∃ (s : Kernel 1) (p : Slot), (s.proc p).parent = some initproc ∧
      (s.proc p).state ≠ .zombie) ∧
    ∃ (m : Move (Kernel 1) (Act 1)) (i : Slot), Returns m initproc i 2 ∧
      (m.src.proc i).pid = 2 ∧ (m.src.proc i).parent = some initproc := by
  obtain ⟨s, hs, hrest⟩ := Option.bind_eq_some_iff.mp childExits_replay
  obtain ⟨u, hu, hrest⟩ := Option.bind_eq_some_iff.mp hrest
  obtain ⟨t, ht, hval⟩ := Option.map_eq_some_iff.mp hrest
  obtain ⟨hwait, hc, hpos, hscan⟩ : InWait (s.proc initproc) ∧ u.cpu 0 = .running initproc 0 0 ∧
      (u.proc initproc).context.pos = .wait ∧
        waitScan initproc ((u.setChan initproc none).setPos initproc .user)
          = .reap ⟨1, by decide⟩ 2 := by
    simpa [InWait] using hval
  obtain ⟨tr, htr, -⟩ := exists_run_of_replay hs
  obtain ⟨tr', htr', -⟩ := exists_run_of_replay hu
  have hrun := (htr.append htr').snoc ht
  have hret : Returns ⟨u, .resume 0, t⟩ initproc ⟨1, by decide⟩ 2 :=
    ⟨0, .inr ⟨rfl, ⟨0, 0, hc⟩, hpos, hscan⟩⟩
  obtain ⟨-, ⟨p, hp⟩, halive⟩ :=
    (exit_wait_handshake 1).1 s (reachable_of_replay hs) initproc hwait
  refine ⟨⟨s, p, hp, halive p hp⟩, ⟨u, .resume 0, t⟩, ⟨1, by decide⟩, hret, ?_⟩
  obtain ⟨hpid, hparent, -⟩ := ((exit_wait_handshake 1).2 _ _ hrun).2 _ _ _ _ _ _ rfl hret
  exact ⟨hpid, hparent⟩

end Example

end CS537.Mlfq
