import CS537.Files.Bytes

/-!
# Sleepers of a pipe

A process that sleeps in `piperead` or `pipewrite` should be one that could not go on: a reader at
an empty pipe that has a writer, or a writer at a full pipe that has a reader. For writers this
holds in every state. A reader can be left asleep at a full pipe: when a process that has been
killed is about to wait for room, `pipewrite` returns from its loop without waking the readers,
though it may have filled the pipe since it took the lock.
-/

namespace CS537.Files

open Function Transition

variable {s t : Kernel} {q : Slot} {a : Act} {C : Chan → Prop}

/-- Those who sleep on the channel could not go on. -/
def Chan.Blocked (s : Kernel) : Chan → Prop
  | .nread p => ∃ P, s.pipe p = some P ∧ P.Empty ∧ P.writeopen = true
  | .nwrite p => ∃ P, s.pipe p = some P ∧ P.Full ∧ P.readopen = true

/-- Whoever sleeps does so on a channel, and could not go on if the channel is in `C`. -/
def AlertOn (C : Chan → Prop) (s : Kernel) : Prop :=
  ∀ q, (s.proc q).asleep = true → ∃ chan, (s.proc q).pos.chan = some chan ∧
    (C chan → chan.Blocked s)

/-- Nobody sleeps who could go on. -/
def Alert (s : Kernel) : Prop := AlertOn (fun _ ↦ True) s

/-- A killed process writes more than a pipe holds while a reader of the pipe sleeps. -/
def Loses (m : Move Kernel Act) : Prop :=
  ∃ q addr p n i q' n', m.act = .pipewrite q addr ∧ (m.src.proc q).pos = .write p n i ∧
    (m.src.proc q).killed = true ∧ pipesize < n.toNat - i ∧ (m.src.proc q').asleep = true ∧
    (m.src.proc q').pos = .read p n'

/-- The page of the pipe. -/
def Chan.page : Chan → ℕ
  | .nread p => p
  | .nwrite p => p

/-! ## One move -/

/-- In `s'`, a process that sleeps is one that has slept in `s`, at its place, and still could not
go on if it could not then. -/
def Drowsy (C : Chan → Prop) (s s' t : Kernel) : Prop :=
  ∀ q, (s'.proc q).asleep = true → (s.proc q).asleep = true ∧
    (s'.proc q).pos = (s.proc q).pos ∧
    ∀ chan, (s.proc q).pos.chan = some chan → C chan → chan.Blocked s → chan.Blocked t

theorem Chan.Blocked.congr {chan : Chan} (h : chan.Blocked s)
    (hpipe : t.pipe chan.page = s.pipe chan.page) : chan.Blocked t := by
  cases chan with
  | nread p =>
    obtain ⟨P, hp, hP⟩ := h
    exact ⟨P, hpipe.trans hp, hP⟩
  | nwrite p =>
    obtain ⟨P, hp, hP⟩ := h
    exact ⟨P, hpipe.trans hp, hP⟩

theorem chan_eq_nread {x : Pos} {p : ℕ} (h : x.chan = some (.nread p)) : ∃ n, x = .read p n := by
  cases x with
  | read p' n =>
    obtain rfl := Chan.nread.inj (Option.some.inj h)
    exact ⟨n, rfl⟩
  | _ => simp [Pos.chan] at h

/-- A process whose place and sleep stay does not count as changed. -/
theorem same_setProc {P : Proc} (hasleep : P.asleep = (s.proc q).asleep)
    (hpos : P.pos = (s.proc q).pos) (q' : Slot) :
    ((s.setProc q P).proc q').asleep = (s.proc q').asleep ∧
      ((s.setProc q P).proc q').pos = (s.proc q').pos := by
  by_cases hne : q' = q
  · subst hne
    simp [hasleep, hpos]
  · simp [hne]

theorem asleep_wakeup {chan : Chan} (h : ((s.wakeup chan).proc q).asleep = true) :
    (s.proc q).asleep = true ∧ (s.proc q).pos.chan ≠ some chan := by
  simpa [Proc.wakeup] using h

/-- The pipe `p` is changed, and the channel `chan₀` woken. -/
theorem drowsy_wakeup {p : ℕ} {x : Option Pipe} {chan₀ : Chan}
    (hpipe : t.pipe = update s.pipe p x)
    (hother : ∀ chan, chan.page = p → chan ≠ chan₀ → C chan → chan.Blocked s → chan.Blocked t) :
    Drowsy C s ((s.setPipe p x).wakeup chan₀) t := by
  intro q hq
  obtain ⟨hasleep, hchan₀⟩ := asleep_wakeup hq
  refine ⟨hasleep, rfl, fun chan hchan hC hblocked ↦ ?_⟩
  by_cases hpage : chan.page = p
  · refine hother chan hpage ?_ hC hblocked
    rintro rfl
    exact hchan₀ hchan
  · refine hblocked.congr ?_
    rw [hpipe, update_of_ne hpage]

namespace AlertOn

theorem awake (h : AlertOn C s) {x : Pos} (hq : (s.proc q).pos = x) (hx : x.chan = none) :
    (s.proc q).asleep = false := by
  by_contra hasleep
  obtain ⟨chan, hchan, -⟩ := h q (Bool.eq_true_of_not_eq_false hasleep)
  rw [hq, hx] at hchan
  cases hchan

theorem ready_awake (h : AlertOn C s) (hq : s.Ready q) : (s.proc q).asleep = false :=
  h.awake hq.1.2 rfl

/-- A move of `q`, after which the process is in `P`. -/
theorem move (h : AlertOn C s) {s' : Kernel} (P : Proc) (ht : t = s'.setProc q P)
    (hrest : Drowsy C s s' t)
    (hself : P.asleep = true → ∃ chan, P.pos.chan = some chan ∧ (C chan → chan.Blocked t)) :
    AlertOn C t := by
  intro q' hq'
  by_cases hne : q' = q
  · subst hne
    rw [ht, Kernel.setProc_proc, update_self] at hq' ⊢
    exact ht ▸ hself hq'
  · have hproc : t.proc q' = s'.proc q' := by rw [ht, Kernel.setProc_proc, update_of_ne hne]
    rw [hproc] at hq' ⊢
    obtain ⟨hasleep, hpos, hblocked⟩ := hrest q' hq'
    obtain ⟨chan, hchan, hC⟩ := h q' hasleep
    exact ⟨chan, hpos ▸ hchan, fun hin ↦ hblocked chan hchan hin (hC hin)⟩

/-- A move that leaves the process awake and the pipes as they are. -/
theorem calm (h : AlertOn C s) {s' : Kernel} (P : Proc) (ht : t = s'.setProc q P)
    (hpipe : s'.pipe = s.pipe)
    (hproc : ∀ q', (s'.proc q').asleep = (s.proc q').asleep ∧ (s'.proc q').pos = (s.proc q').pos)
    (hself : P.asleep = false) : AlertOn C t := by
  refine h.move P ht (fun q' hq' ↦ ?_) fun hasleep ↦ ?_
  · refine ⟨(hproc q').1 ▸ hq', (hproc q').2, fun chan _ _ hblocked ↦ ?_⟩
    have hpipe' : t.pipe = s.pipe := by rw [ht, Kernel.setProc_pipe, hpipe]
    cases chan with
    | nread p => rwa [Chan.Blocked, hpipe']
    | nwrite p => rwa [Chan.Blocked, hpipe']
  · rw [hself] at hasleep
    cases hasleep

/-- `pipealloc` makes a pipe where there has been none. -/
theorem fresh (h : AlertOn C s) {p : ℕ} {f₀ f₁ : FileNo} (P : Proc) (hp : s.pipe p = none)
    (hself : P.asleep = false) : AlertOn C ((s.setEnds f₀ f₁ p).setProc q P) := by
  refine h.move P rfl (fun q' hq' ↦ ⟨hq', rfl, fun chan _ _ hblocked ↦ hblocked.congr ?_⟩)
    fun hasleep ↦ ?_
  · have hpage : chan.page ≠ p := by
      rintro rfl
      cases chan with
      | nread p =>
        obtain ⟨P, hp', -⟩ := hblocked
        exact Option.some_ne_none P (hp'.symm.trans hp)
      | nwrite p =>
        obtain ⟨P, hp', -⟩ := hblocked
        exact Option.some_ne_none P (hp'.symm.trans hp)
    rw [Kernel.setProc_pipe, Kernel.setEnds_pipe, update_of_ne hpage]
  · rw [hself] at hasleep
    cases hasleep

theorem pipeclose (h : AlertOn C s) {p : ℕ} {w : Bool} {k : Then} {P : Pipe}
    (hq : (s.proc q).pos = .pipeclose p w k) (hp : s.pipe p = some P) :
    AlertOn C (((s.setPipe p (P.shut w).kept).wakeup
      (if w then .nread p else .nwrite p)).setProc q ((s.proc q).resume k)) := by
  refine h.move _ rfl (drowsy_wakeup rfl fun chan hpage hne _ hblocked ↦ ?_) fun hasleep ↦ ?_
  · cases chan with
    | nread p' =>
      obtain rfl : p' = p := hpage
      obtain ⟨P', hp', hempty, hopen⟩ := hblocked
      obtain rfl := Option.some.inj (hp.symm.trans hp')
      cases w with
      | true => exact absurd rfl hne
      | false =>
        refine ⟨P.shut false, ?_, hempty, hopen⟩
        rw [Kernel.setProc_pipe, Kernel.wakeup_pipe, Kernel.setPipe_pipe, update_self, Pipe.kept,
          if_neg fun hclosed ↦ absurd (hclosed.2.symm.trans hopen) Bool.false_ne_true]
    | nwrite p' =>
      obtain rfl : p' = p := hpage
      obtain ⟨P', hp', hfull, hopen⟩ := hblocked
      obtain rfl := Option.some.inj (hp.symm.trans hp')
      cases w with
      | false => exact absurd rfl hne
      | true =>
        refine ⟨P.shut true, ?_, hfull, hopen⟩
        rw [Kernel.setProc_pipe, Kernel.wakeup_pipe, Kernel.setPipe_pipe, update_self, Pipe.kept,
          if_neg fun hclosed ↦ absurd (hclosed.1.symm.trans hopen) Bool.false_ne_true]
  · rw [Proc.resume_asleep, h.awake hq rfl] at hasleep
    cases hasleep

theorem piperead (h : AlertOn C s) {p : ℕ} {P P' : Pipe} {l : List Byte}
    (hawake : (s.proc q).asleep = false) (hp : s.pipe p = some P)
    (hmore : ¬(P.Empty ∧ P.writeopen)) :
    AlertOn C (((s.setPipe p (some P')).wakeup (.nwrite p)).setProc q
      ((s.proc q).reply l.length)) := by
  refine h.move _ rfl (drowsy_wakeup rfl fun chan hpage hne _ hblocked ↦ ?_) fun hasleep ↦ ?_
  · cases chan with
    | nread p' =>
      obtain rfl : p' = p := hpage
      obtain ⟨P'', hp', hempty⟩ := hblocked
      obtain rfl := Option.some.inj (hp.symm.trans hp')
      exact absurd hempty hmore
    | nwrite p' => exact absurd (congrArg _ hpage) hne
  · rw [Proc.reply_asleep, hawake] at hasleep
    cases hasleep

theorem readSleep (h : AlertOn C s) {p : ℕ} {n : ℤ} {P : Pipe} (hq : (s.proc q).pos = .read p n)
    (hp : s.pipe p = some P) (hempty : P.Empty ∧ P.writeopen) :
    AlertOn C (s.setProc q (s.proc q).fallAsleep) := by
  refine h.move _ rfl (fun q' hq' ↦ ⟨hq', rfl, fun _ _ _ hblocked ↦ hblocked.congr rfl⟩) fun _ ↦ ?_
  refine ⟨.nread p, ?_, fun _ ↦ ⟨P, hp, hempty⟩⟩
  rw [Proc.fallAsleep_pos, hq]
  rfl

/-- What `pipewrite` does to the pipe keeps those who wait for room waiting. -/
theorem blocked_put {p n i j : ℕ} {P P' : Pipe} {addr : ℕ → Byte} (hp : s.pipe p = some P)
    (hput : P.put addr n i = (j, P')) (hpipe : t.pipe = update s.pipe p (some P'))
    (hblocked : (Chan.nwrite p).Blocked s) : (Chan.nwrite p).Blocked t := by
  obtain ⟨P'', hp', hfull, hopen⟩ := hblocked
  obtain rfl := Option.some.inj (hp.symm.trans hp')
  obtain rfl : P = P' := (Prod.mk.inj ((Pipe.put_full hfull addr n i).symm.trans hput)).2
  exact ⟨P, by rw [hpipe, update_self], hfull, hopen⟩

theorem pipewrite (h : AlertOn C s) {p n i j : ℕ} {P P' : Pipe} {addr : ℕ → Byte}
    (hp : s.pipe p = some P) (hput : P.put addr n i = (j, P')) (Q : Proc)
    (hself : Q.asleep = true → Q.pos.chan = some (.nwrite p) ∧ P'.Full ∧ P'.readopen = true) :
    AlertOn C (((s.setPipe p (some P')).wakeup (.nread p)).setProc q Q) := by
  refine h.move Q rfl (drowsy_wakeup rfl fun chan hpage hne _ hblocked ↦ ?_) fun hasleep ↦ ?_
  · cases chan with
    | nread p' => exact absurd (congrArg _ hpage) hne
    | nwrite p' =>
      obtain rfl : p' = p := hpage
      exact blocked_put hp hput rfl hblocked
  · obtain ⟨hchan, hfull, hopen⟩ := hself hasleep
    exact ⟨_, hchan, fun _ ↦ ⟨P', update_self .., hfull, hopen⟩⟩

/-- `pipewrite` fails. It wakes nobody, which is right if no reader sleeps. -/
theorem writeBroken (h : AlertOn C s) {p n i j : ℕ} {P P' : Pipe} {addr : ℕ → Byte}
    (hawake : (s.proc q).asleep = false) (hp : s.pipe p = some P)
    (hput : P.put addr n i = (j, P'))
    (hread : C (.nread p) → ∀ q', (s.proc q').asleep = true →
      (s.proc q').pos.chan ≠ some (.nread p)) :
    AlertOn C ((s.setPipe p (some P')).setProc q ((s.proc q).reply (-1))) := by
  refine h.move _ rfl (fun q' hq' ↦ ⟨hq', rfl, fun chan hchan hC hblocked ↦ ?_⟩) fun hasleep ↦ ?_
  · by_cases hpage : chan.page = p
    · cases chan with
      | nread p' =>
        obtain rfl : p' = p := hpage
        exact absurd hchan (hread hC q' hq')
      | nwrite p' =>
        obtain rfl : p' = p := hpage
        exact blocked_put hp hput rfl hblocked
    · refine hblocked.congr ?_
      rw [Kernel.setProc_pipe, Kernel.setPipe_pipe, update_of_ne hpage]
  · rw [Proc.reply_asleep, hawake] at hasleep
    cases hasleep

/-- A failing write leaves a reader asleep only as `Loses` says. -/
theorem no_reader (h : AlertOn C s) (hr : Reach s) {p : ℕ} {n : ℤ} {i j : ℕ} {P P' : Pipe}
    {addr : ℕ → Byte} (hq : (s.proc q).pos = .write p n i) (hp : s.pipe p = some P) (hok : P.Ok)
    (hput : P.put addr (n.toNat - i) i = (j, P')) (hfull : j < n.toNat)
    (hbroken : P'.readopen = false ∨ (s.proc q).killed) (hC : C (.nread p))
    (hloses : ¬Loses ⟨s, .pipewrite q addr, t⟩) {q' : Slot} (hq' : (s.proc q').asleep = true) :
    (s.proc q').pos.chan ≠ some (.nread p) := by
  intro hchan
  obtain ⟨n', hpos⟩ := chan_eq_nread hchan
  obtain ⟨chan, hchan', hblocked⟩ := h q' hq'
  obtain rfl := Option.some.inj (hchan.symm.trans hchan')
  obtain ⟨P₁, hp₁, hempty, -⟩ := hblocked hC
  obtain rfl := Option.some.inj (hp.symm.trans hp₁)
  have hj := Pipe.put_eq_room hok hput
  rw [Pipe.empty_iff.mp hempty] at hj
  have hmore : pipesize < n.toNat - i := by omega
  rcases hbroken with hclosed | hkill
  · obtain ⟨P₂, hp₂, hopen⟩ := hr.good.ends.exists_of_read hpos
    obtain rfl := Option.some.inj (hp.symm.trans hp₂)
    have hput' := Pipe.isOpen_put addr (n.toNat - i) i P false
    rw [hput, hopen] at hput'
    exact Bool.false_ne_true (hclosed.symm.trans hput')
  · exact hloses ⟨q, addr, p, n, i, q', n', rfl, hq, hkill, hmore, hq', hpos⟩

theorem trans (h : AlertOn C s) (hr : Reach s) (hok : ∀ p P, s.pipe p = some P → P.Ok)
    (ht : Trans s a t) (hC : ∀ p, C (.nread p) → ¬Loses ⟨s, a, t⟩) : AlertOn C t := by
  have hsame : ∀ q' : Slot, (s.proc q').asleep = (s.proc q').asleep ∧
      (s.proc q').pos = (s.proc q').pos := fun q' ↦ ⟨rfl, rfl⟩
  cases ht with
  | fail ha hq => exact h.calm _ rfl rfl hsame (h.ready_awake hq)
  | inode => exact h
  | sysDup hq => exact h.calm _ rfl rfl hsame (h.ready_awake hq)
  | openFull hq => exact h.calm _ rfl rfl hsame (h.ready_awake hq)
  | sysOpen hq => exact h.calm _ rfl rfl hsame (h.ready_awake hq)
  | sysClose hq => exact h.calm _ rfl rfl hsame (h.ready_awake hq)
  | sysPipe hq => exact h.calm _ rfl rfl hsame (h.ready_awake hq)
  | pipeallocFail hq => exact h.calm _ rfl rfl hsame (h.awake hq rfl)
  | pipealloc hq => exact h.calm _ rfl rfl hsame (h.awake hq rfl)
  | kallocFail hq => exact h.calm _ rfl rfl hsame (h.awake hq rfl)
  | pipeFull hq hp => exact h.fresh _ hp (h.awake hq rfl)
  | pipe hq hp => exact h.fresh _ hp (h.awake hq rfl)
  | sysRead hq => exact h.calm _ rfl rfl hsame (h.ready_awake hq)
  | sysWrite hq => exact h.calm _ rfl rfl hsame (h.ready_awake hq)
  | fork hq => exact h.calm _ rfl rfl (same_setProc rfl rfl) (h.ready_awake hq)
  | exit hq => exact h.calm _ rfl rfl hsame (h.awake hq.2 rfl)
  | wait hq =>
    have hpos := (hr.good.shape.ok _).idle (by rw [hq]; exact ProcState.noConfusion)
    exact h.calm _ rfl rfl hsame (h.awake hpos rfl)
  | kill => exact h.calm _ rfl rfl hsame rfl
  | drop hq => exact h.calm _ rfl rfl hsame ((Proc.resume_asleep ..).trans (h.awake hq rfl))
  | dropLast hq => exact h.calm _ rfl rfl hsame ((Proc.resume_asleep ..).trans (h.awake hq rfl))
  | dropEnd hq => exact h.calm _ rfl rfl hsame (h.awake hq rfl)
  | pipeclose hq hp => exact h.pipeclose hq hp
  | readKilled hq hawake => exact h.calm _ rfl rfl hsame hawake
  | readSleep hq hawake hp hempty => exact h.readSleep hq hp hempty
  | piperead hq hawake hp hmore => exact h.piperead hawake hp hmore
  | pipewrite hq hawake hp hput hdone =>
    refine h.pipewrite hp hput _ fun hasleep ↦ ?_
    rw [Proc.reply_asleep, hawake] at hasleep
    cases hasleep
  | writeBroken hq hawake hp hput hfull hbroken =>
    exact h.writeBroken hawake hp hput fun hin q' ↦
      h.no_reader hr hq hp (hok _ _ hp) hput hfull hbroken hin (hC _ hin)
  | writeSleep hq hawake hp hput hfull hreadopen =>
    refine h.pipewrite hp hput _ fun _ ↦ ⟨rfl, ?_, hreadopen⟩
    obtain ⟨-, m, hm, rfl, -, hfull'⟩ := Pipe.put_spec (hok _ _ hp) hput
    exact hfull' (by omega)
  | forkSkip hq => exact h.calm _ rfl rfl hsame (h.awake hq rfl)
  | forkDup hq => exact h.calm _ rfl rfl (same_setProc rfl rfl) (h.awake hq rfl)
  | forkEnd hq => exact h.calm _ rfl rfl (same_setProc rfl rfl) (h.awake hq rfl)
  | exitSkip hq => exact h.calm _ rfl rfl hsame (h.awake hq rfl)
  | exitClose hq => exact h.calm _ rfl rfl hsame (h.awake hq rfl)
  | exitEnd hq => exact h.calm _ rfl rfl hsame (h.awake hq rfl)

end AlertOn

/-! ## Runs -/

theorem alertOn_boot (C : Chan → Prop) : AlertOn C boot :=
  fun _ hasleep ↦ absurd hasleep Bool.false_ne_true

theorem AlertOn.run {tr : List (Move Kernel Act)} (h : Run step boot tr s)
    (hC : ∀ p, C (.nread p) → ∀ m ∈ tr, ¬Loses m) : AlertOn C s := by
  induction h with
  | nil => exact alertOn_boot C
  | snoc hrun hstep ih =>
    refine (ih fun p hin m hm ↦ hC p hin m (List.mem_append_left _ hm)).trans
      ⟨boot, _, rfl, hrun, fun _ _ ↦ trivial⟩ (fun p P hp ↦ (Booked.run hrun p P hp).1)
      (trans_of_step hstep) fun p hin ↦ hC p hin _ ?_
    exact List.mem_append_right _ (List.mem_singleton_self _)

/-- A move that `Loses` leaves its reader asleep at a full pipe. -/
theorem Loses.not_alert {m : Move Kernel Act} (h : Loses m) (hr : Reach m.src)
    (hstep : step m.act m.src = some m.dst) (halert : Alert m.src) : ¬Alert m.dst := by
  obtain ⟨src, act, dst⟩ := m
  obtain ⟨q, addr, p, n, i, q', n', rfl, hq, hkill, hmore, hq', hpos⟩ := h
  obtain ⟨s₀, tr, rfl, hrun, -⟩ := hr
  dsimp only at *
  intro hdst
  obtain ⟨chan, hchan, hblocked⟩ := halert q' hq'
  rw [hpos] at hchan
  obtain rfl := Option.some.inj hchan
  obtain ⟨P, hp, hempty, -⟩ := hblocked trivial
  have hok := (Booked.run hrun p P hp).1
  cases hput : P.put addr (n.toNat - i) i with
  | mk j P' =>
    have hj := Pipe.put_eq_room hok hput
    rw [Pipe.empty_iff.mp hempty] at hj
    obtain ⟨hok', m, -, hm, -, hfull⟩ := Pipe.put_spec hok hput
    have hne : q' ≠ q := by
      rintro rfl
      cases hpos.symm.trans hq
    cases trans_of_step hstep with
    | fail ha => cases ha
    | inode ha => cases ha
    | pipewrite hq₁ _ hp₁ hput₁ hdone =>
      obtain ⟨rfl, rfl, rfl⟩ := Pos.write.inj (hq.symm.trans hq₁)
      obtain rfl := Option.some.inj (hp.symm.trans hp₁)
      obtain ⟨rfl, rfl⟩ := Prod.mk.inj (hput.symm.trans hput₁)
      omega
    | writeSleep _ _ _ _ _ _ hkill₁ => exact Bool.false_ne_true (hkill₁.symm.trans hkill)
    | writeBroken hq₁ _ hp₁ hput₁ =>
      obtain ⟨rfl, rfl, rfl⟩ := Pos.write.inj (hq.symm.trans hq₁)
      obtain rfl := Option.some.inj (hp.symm.trans hp₁)
      obtain ⟨rfl, rfl⟩ := Prod.mk.inj (hput.symm.trans hput₁)
      have hproc : (((src.setPipe p (some P')).setProc q ((src.proc q).reply (-1))).proc q') =
          src.proc q' := by rw [Kernel.setProc_proc, update_of_ne hne, Kernel.setPipe_proc]
      obtain ⟨chan, hchan, hblocked⟩ := hdst q' (by rwa [hproc])
      rw [hproc, hpos] at hchan
      obtain rfl := Option.some.inj hchan
      obtain ⟨P₂, hp₂, hempty₂, -⟩ := hblocked trivial
      rw [Kernel.setProc_pipe, Kernel.setPipe_pipe, update_self] at hp₂
      obtain rfl := Option.some.inj hp₂
      have hcount := (Pipe.full_iff hok').mp (hfull (by omega))
      rw [Pipe.empty_iff.mp hempty₂] at hcount
      cases hcount

/-- **Lost wakeups.** In every state that is reached, a process that sleeps in `pipewrite` does so
at a full pipe that has a reader. The same holds of readers, at an empty pipe that has a writer, in
the states of a run exactly when no killed process begins to write more than a pipe holds while a
reader sleeps. -/
theorem lost_wakeup_iff {tr : List (Move Kernel Act)} (h : Run step boot tr s) :
    (∀ q p n i, (s.proc q).asleep = true → (s.proc q).pos = .write p n i →
      (Chan.nwrite p).Blocked s) ∧
    ((∀ m ∈ tr, Alert m.dst) ↔ ∀ m ∈ tr, ¬Loses m) := by
  refine ⟨fun q p n i hasleep hpos ↦ ?_, fun halert m hm hloses ↦ ?_, fun hsafe m hm ↦ ?_⟩
  · have hwriters : AlertOn (∃ p, · = Chan.nwrite p) s := AlertOn.run h fun _ ⟨_, heq⟩ ↦ nomatch heq
    obtain ⟨chan, hchan, hblocked⟩ := hwriters q hasleep
    rw [hpos] at hchan
    obtain rfl := Option.some.inj hchan
    exact hblocked ⟨p, rfl⟩
  · obtain ⟨-, hsrc⟩ := h.src_of_dst (P := Alert) (alertOn_boot _) halert
    obtain ⟨tr₁, tr₂, rfl⟩ := List.append_of_mem hm
    obtain ⟨hrun, hstep, -⟩ := h.split_at
    exact hloses.not_alert ⟨boot, tr₁, rfl, hrun, fun _ _ ↦ trivial⟩ hstep (hsrc m hm)
      (halert m hm)
  · obtain ⟨tr₁, tr₂, rfl⟩ := List.append_of_mem hm
    obtain ⟨hrun, hstep, -⟩ := h.split_at
    refine AlertOn.run (hrun.snoc hstep) fun p _ m' hm' ↦ hsafe m' ?_
    rcases List.mem_append.mp hm' with hm' | hm'
    · exact List.mem_append_left _ hm'
    · obtain rfl := List.mem_singleton.mp hm'
      exact hm

/-- The child reads, and finds the pipe empty; the first process, killed, is about to write. -/
def losing : List Act :=
  [.sysRead second 0 2, .piperead second, .sysWrite initproc 1 600, .kill initproc]

theorem lost_wakeup : ∃ tr s, Run step boot tr s ∧ ¬∀ m ∈ tr, Alert m.dst := by
  have hrun := run_piped losing (by decide +kernel)
  obtain ⟨t, ht⟩ : ∃ t, step (.pipewrite initproc fun i ↦ i) (piped losing) = some t :=
    Option.isSome_iff_exists.mp (by decide +kernel)
  refine ⟨_, t, hrun.snoc ht, ?_⟩
  rw [(lost_wakeup_iff (hrun.snoc ht)).2]
  refine fun hsafe ↦ hsafe _ (List.mem_append_right _ (List.mem_singleton_self _)) ?_
  have hwrite : ((piped losing).proc initproc).pos = .write 4096 600 0 := by decide +kernel
  have hkill : ((piped losing).proc initproc).killed = true := by decide +kernel
  have hasleep : ((piped losing).proc second).asleep = true := by decide +kernel
  have hread : ((piped losing).proc second).pos = .read 4096 2 := by decide +kernel
  exact ⟨initproc, _, 4096, 600, 0, second, 2, rfl, hwrite, hkill, by decide, hasleep, hread⟩

end CS537.Files
