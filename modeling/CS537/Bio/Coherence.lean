import CS537.Bio.Queue

/-!
# The cache and the disk

What `bread` returns is what has last been written to the block with `bwrite`, or what the disk had
at the start. This rests on three things that the code does not check: the blocks asked for exist,
`idestart` using one bit of the device and 28 bits of the sector only; buffers are released as they
are on the disk, so that `bget` finds no changes that were not written; and the disk reports no
error, since `ideintr` marks the buffer valid all the same.
-/

namespace CS537.Bio

open Function Transition

variable {s t : Kernel} {q : Slot} {b : Bufno} {a : Act} {l ql : List Bufno} {k : Key}

/-- The block is one that `idestart` can address. -/
def InRange (k : Key) : Prop := k.1.toNat < 2 ∧ k.2.toNat < 2 ^ 28

/-- No two buffers hold the same block, apart from those that `binit` has left without one. -/
def Distinct (s : Kernel) : Prop :=
  ∀ b b', (s.buf b).key.1 ≠ -1 → (s.buf b').key = (s.buf b).key → b' = b

/-- The contents of the blocks, as they are in the disk, in the cache, or on the way. -/
structure Coherent (c : Key → Block) (s : Kernel) : Prop where
  asked : ∀ q dev sector, (s.proc q).pos = .bget dev sector → InRange (dev, sector)
  range : ∀ b, InRange (s.buf b).key ∨ (s.buf b).busy = false
  clean : ∀ b, (s.buf b).Done → ((s.buf b).busy = false ∨ ∃ q c, (s.proc q).pos = .wait c b) →
    (s.buf b).data = c (s.buf b).key
  dirty : ∀ b, (s.buf b).dirty = true → (s.buf b).data = c (s.buf b).key
  disk : ∀ k, InRange k → (∀ b, (s.buf b).key = k → (s.buf b).dirty = false) →
    s.disk (place k) = c k
  started : ∀ b, s.idequeue = some b → (s.buf b).dirty = true →
    s.disk (s.buf b).place = (s.buf b).data

theorem InRange.dev_ne (h : InRange k) : k.1 ≠ -1 := by
  intro heq
  have hlt := h.1
  rw [heq] at hlt
  exact absurd hlt (by decide)

theorem InRange.place_injective {k' : Key} (h : InRange k) (h' : InRange k')
    (heq : place k = place k') : k = k' := by
  obtain ⟨hdev, hsector⟩ := h
  obtain ⟨hdev', hsector'⟩ := h'
  obtain ⟨hfst, hsnd⟩ := Prod.mk.inj heq
  rw [Nat.mod_eq_of_lt hdev, Nat.mod_eq_of_lt hdev'] at hfst
  rw [Nat.mod_eq_of_lt hsector, Nat.mod_eq_of_lt hsector'] at hsnd
  exact Prod.ext (BitVec.eq_of_toNat_eq hfst) (BitVec.eq_of_toNat_eq hsnd)

/-! ## Blocks of buffers -/

theorem key_update {x : Buf} (h : x.key = (s.buf b).key) (b' : Bufno) :
    (update s.buf b x b').key = (s.buf b').key := by
  by_cases hne : b' = b
  · rw [hne, update_self, h]
  · rw [update_of_ne hne]

/-- Only `bget` gives a buffer another block, one that no buffer holds. -/
theorem key_of_trans (hl : Listed l s) (ht : Trans s a t) :
    (∀ b, (t.buf b).key = (s.buf b).key) ∨ ∃ q b dev sector, (s.proc q).pos = .bget dev sector ∧
      (s.buf b).busy = false ∧ (∀ b', (s.buf b').key ≠ (dev, sector)) ∧
      t.buf = update s.buf b ⟨true, false, false, dev, sector, (s.buf b).data⟩ := by
  cases ht with
  | bread => exact .inl fun _ ↦ rfl
  | hit => exact .inl (key_update rfl)
  | sleep => exact .inl fun _ ↦ rfl
  | @miss q dev sector b hq hchan hfind hfree =>
    refine .inr ⟨q, b, dev, sector, hq, hl.free hfree, fun b' hb' ↦ ?_, rfl⟩
    exact hl.no_block hfind b' (Prod.mk.inj hb')
  | iderw hq hbusy hdone henqueue =>
    obtain ⟨-, -, hbuf, -⟩ := start_same henqueue rfl
    exact .inl fun b' ↦ by rw [await_buf, hbuf]
  | resume => exact .inl fun _ ↦ by rw [await_buf]
  | ideintr ok =>
    cases hidequeue : s.idequeue with
    | none => exact .inl fun _ ↦ by rw [ideintr_of_none ok hidequeue]
    | some b =>
      obtain ⟨hbuf, -⟩ := ideintr_same ok hidequeue
      rw [hbuf]
      exact .inl (key_update rfl)
  | store => exact .inl (key_update rfl)
  | bwrite => exact .inl (key_update rfl)
  | brelse => exact .inl (key_update rfl)
  | kill => exact .inl fun _ ↦ rfl

theorem Distinct.trans (h : Distinct s) (hl : Listed l s) (ht : Trans s a t) : Distinct t := by
  rcases key_of_trans hl ht with hkey | ⟨q, b₀, dev, sector, -, -, hnone, hbuf⟩
  · intro b b' hdev heq
    rw [hkey b] at hdev
    rw [hkey b, hkey b'] at heq
    exact h b b' hdev heq
  · intro b b' hdev heq
    rw [hbuf] at hdev heq
    by_cases hb : b = b₀
    · rw [hb] at heq ⊢
      rw [update_self] at heq
      by_contra hne
      rw [update_of_ne hne] at heq
      exact hnone b' heq
    · rw [update_of_ne hb] at hdev heq
      by_cases hb' : b' = b₀
      · rw [hb', update_self] at heq
        exact absurd heq.symm (hnone b)
      · rw [update_of_ne hb'] at heq
        exact h b b' hdev heq

/-! ## Moves -/

/-- The contents of the blocks after a move. -/
def written (c : Key → Block) (m : Move Kernel Act) : Key → Block :=
  match m.act with
  | .bwrite _ b => update c (m.src.buf b).key (m.src.buf b).data
  | _ => c

/-- The block that a process asks for exists, a buffer is released as it is on the disk, and the
disk reports no error. -/
def Careful (m : Move Kernel Act) : Prop :=
  match m.act with
  | .bread _ dev sector => InRange (dev, sector)
  | .brelse _ b => (m.src.buf b).data = m.src.disk (m.src.buf b).place
  | .ideintr ok => ok = true
  | _ => True

instance (m : Move Kernel Act) : Decidable (Careful m) :=
  match m with
  | ⟨_, .bread _ _ _, _⟩ => inferInstanceAs (Decidable (_ ∧ _))
  | ⟨_, .brelse _ _, _⟩ => inferInstanceAs (Decidable (_ = _))
  | ⟨_, .ideintr _, _⟩ => inferInstanceAs (Decidable (_ = _))
  | ⟨_, .bget _, _⟩ => .isTrue trivial
  | ⟨_, .iderw _, _⟩ => .isTrue trivial
  | ⟨_, .resume _, _⟩ => .isTrue trivial
  | ⟨_, .store _ _ _, _⟩ => .isTrue trivial
  | ⟨_, .bwrite _ _, _⟩ => .isTrue trivial
  | ⟨_, .kill _, _⟩ => .isTrue trivial

namespace Coherent

variable {c : Key → Block}

theorem inRange (h : Coherent c s) (hb : (s.buf b).busy = true) : InRange (s.buf b).key := by
  refine (h.range b).resolve_right fun hfree ↦ ?_
  rw [hfree] at hb
  cases hb

/-- A dirty buffer is busy. -/
theorem inRange_of_dirty (h : Coherent c s) (ho : Owned s) (hb : (s.buf b).dirty = true) :
    InRange (s.buf b).key := by
  refine h.inRange ?_
  by_contra hfree
  rw [ho.idle b (Bool.eq_false_of_not_eq_true hfree)] at hb
  cases hb

/-- A filled buffer that is not dirty holds what is on the disk, if it holds what the block has. -/
theorem disk_eq (h : Coherent c s) (hd : Distinct s) (hb : InRange (s.buf b).key)
    (hdirty : (s.buf b).dirty = false) : s.disk (s.buf b).place = c (s.buf b).key := by
  refine h.disk _ hb fun b' hb' ↦ ?_
  rw [hd b b' hb.dev_ne hb']
  exact hdirty

/-- A move that changes neither buffers, nor the disk, nor the queue. -/
theorem calm (h : Coherent c s) (hbuf : t.buf = s.buf) (hdisk : t.disk = s.disk)
    (hidequeue : t.idequeue = s.idequeue)
    (hasked : ∀ q dev sector, (t.proc q).pos = .bget dev sector → InRange (dev, sector))
    (hwait : ∀ q c b, (t.proc q).pos = .wait c b → (s.buf b).Done → (s.proc q).pos = .wait c b) :
    Coherent c t := by
  refine ⟨hasked, ?_, fun b hdone hidle ↦ ?_, ?_, ?_, ?_⟩
  · rw [hbuf]
    exact h.range
  · rw [hbuf] at hdone hidle ⊢
    refine h.clean b hdone (hidle.imp_right fun hw ↦ ?_)
    obtain ⟨q, c', hq⟩ := hw
    exact ⟨q, c', hwait q c' b hq hdone⟩
  · rw [hbuf]
    exact h.dirty
  · rw [hbuf, hdisk]
    exact h.disk
  · rw [hbuf, hdisk, hidequeue]
    exact h.started

/-- A process falls asleep or is woken. -/
theorem sleep (h : Coherent c s) (x : Option Bufno) :
    Coherent c (s.setProc q { s.proc q with chan := x }) := by
  have hpos : ∀ q', ((s.setProc q { s.proc q with chan := x }).proc q').pos = (s.proc q').pos :=
    Queued.pos_setProc (fun _ ↦ rfl) rfl
  refine h.calm rfl rfl rfl (fun q' dev sector hq' ↦ ?_) fun q' c' b hq' _ ↦ ?_
  · exact h.asked q' dev sector ((hpos q').symm.trans hq')
  · exact (hpos q').symm.trans hq'

/-- `bget` takes the buffer `b`. -/
theorem got (h : Coherent c s) (ho : Owned s) {dev sector : BitVec 32} {x : Buf}
    (hfree : (s.buf b).busy = false) (hbusy : x.busy = true) (hdirty : x.dirty = false)
    (hx : InRange x.key) : Coherent c (got q dev sector b (s.setBuf b x)) := by
  have hbuf : (Bio.got q dev sector b (s.setBuf b x)).buf = update s.buf b x := rfl
  have hdisk : (Bio.got q dev sector b (s.setBuf b x)).disk = s.disk := rfl
  have hpos : ∀ q', ((Bio.got q dev sector b (s.setBuf b x)).proc q').pos = (s.proc q').pos ∨
      ((Bio.got q dev sector b (s.setBuf b x)).proc q').pos = .user ∨
      ∃ c₁ b₁, ((Bio.got q dev sector b (s.setBuf b x)).proc q').pos = .iderw c₁ b₁ := by
    intro q'
    rw [Bio.got, setProc_proc]
    by_cases hne : q' = q
    · rw [hne, update_self]
      dsimp only
      split
      · exact .inr (.inl rfl)
      · exact .inr (.inr ⟨_, _, rfl⟩)
    · rw [update_of_ne hne]
      exact .inl rfl
  refine ⟨fun q' dev' sector' hq' ↦ ?_, fun b' ↦ ?_, fun b' hdone hidle ↦ ?_, fun b' hd ↦ ?_,
    fun k hk hall ↦ ?_, fun b' hb' hd ↦ ?_⟩
  · rcases hpos q' with hold | hold | ⟨c', b', hold⟩
    · exact h.asked q' dev' sector' (hold.symm.trans hq')
    · cases hold.symm.trans hq'
    · cases hold.symm.trans hq'
  · rw [hbuf]
    by_cases hne : b' = b
    · rw [hne, update_self]
      exact .inl hx
    · rw [update_of_ne hne]
      exact h.range b'
  · have hwait : ∀ q' c', ((Bio.got q dev sector b (s.setBuf b x)).proc q').pos = .wait c' b' →
        (s.proc q').pos = .wait c' b' := by
      intro q' c' hq'
      rcases hpos q' with hold | hold | ⟨_, _, hold⟩
      · exact hold.symm.trans hq'
      · cases hold.symm.trans hq'
      · cases hold.symm.trans hq'
    rw [hbuf] at hdone hidle ⊢
    by_cases hne : b' = b
    · rw [hne, update_self] at hidle
      rcases hidle with hnot | ⟨q', c', hq'⟩
      · cases hnot.symm.trans hbusy
      · rw [hne] at hwait
        exact absurd rfl (Queued.ne_of_free ho hfree (hwait q' c' hq'))
    · rw [update_of_ne hne] at hdone hidle ⊢
      exact h.clean b' hdone (hidle.imp_right fun hw ↦ hw.imp fun q' ↦ Exists.imp (hwait q'))
  · rw [hbuf] at hd ⊢
    by_cases hne : b' = b
    · rw [hne, update_self, hdirty] at hd
      cases hd
    · rw [update_of_ne hne] at hd ⊢
      exact h.dirty b' hd
  · rw [hdisk]
    refine h.disk k hk fun b' hb' ↦ ?_
    by_cases hne : b' = b
    · rw [hne]
      exact ho.idle b hfree
    · have hall' := hall b'
      rw [hbuf, update_of_ne hne] at hall'
      exact hall' hb'
  · rw [hbuf] at hd ⊢
    rw [hdisk]
    by_cases hne : b' = b
    · rw [hne, update_self, hdirty] at hd
      cases hd
    · rw [update_of_ne hne] at hd ⊢
      exact h.started b' hb' hd

/-- A request that is started does not touch a block of which no buffer is dirty. -/
theorem disk_idestart (hdisk : ∀ k, InRange k → (∀ b, (s.buf b).key = k → (s.buf b).dirty = false) →
      s.disk (place k) = c k)
    (hin : (s.buf b).dirty = true → InRange (s.buf b).key) (hk : InRange k)
    (hall : ∀ b, (s.buf b).key = k → (s.buf b).dirty = false) :
    (idestart b s).disk (place k) = c k := by
  rw [idestart]
  split
  · next hdirty =>
    have hne : place k ≠ (s.buf b).place := by
      intro heq
      have hkey := hk.place_injective (hin hdirty) heq
      cases (hall b hkey.symm).symm.trans hdirty
    exact (update_of_ne hne ..).trans (hdisk k hk hall)
  · exact hdisk k hk hall

theorem idestart_place (hdirty : (s.buf b).dirty = true) :
    (idestart b s).disk (s.buf b).place = (s.buf b).data := by
  rw [idestart, if_pos hdirty]
  exact update_self ..

theorem idequeue_of_enqueue {s' : Kernel} (h : enqueue b s = some s') :
    s'.idequeue = some b ∨ s'.idequeue = s.idequeue := by
  simp only [enqueue] at h
  split at h
  · obtain rfl := Option.some.inj h
    exact .inl rfl
  · obtain ⟨z, -, rfl⟩ := Option.map_eq_some_iff.mp h
    exact .inr rfl

/-- `iderw` puts its buffer into the queue; the request is started if there is no other. -/
theorem start (h : Coherent c s) (ho : Owned s) {c' : Call} {s' : Kernel}
    (hq : (s.proc q).pos = .iderw c' b) (henqueue : enqueue b s = some s') :
    Coherent c (Bio.await q c' b (if s'.idequeue = some b then idestart b s' else s')) := by
  have hfits := (ho.fine q).fits
  rw [hq] at hfits
  obtain ⟨hheld, -, hundone⟩ := hfits
  obtain ⟨-, -, hbuf, -, hdisk⟩ := enqueue_same henqueue
  generalize hs₁ : (if s'.idequeue = some b then idestart b s' else s') = s₁
  obtain ⟨-, -, hbuf₁, hproc₁, -, hidequeue₁⟩ := start_same henqueue hs₁
  have hself : awaiting q c' b s₁ = { s.proc q with pos := .wait c' b, chan := some b } := by
    rw [awaiting, hbuf₁, hproc₁, if_neg hundone]
  refine ⟨fun q' dev sector hq' ↦ ?_, fun b' ↦ ?_, fun b' hdone hidle ↦ ?_, fun b' hd ↦ ?_,
    fun k hk hall ↦ ?_, fun b' hb' hd ↦ ?_⟩
  · rw [await_proc, hself, hproc₁] at hq'
    by_cases hne : q' = q
    · rw [hne, update_self] at hq'
      cases hq'
    · rw [update_of_ne hne] at hq'
      exact h.asked q' dev sector hq'
  · rw [await_buf, hbuf₁]
    exact h.range b'
  · rw [await_buf, hbuf₁] at hdone hidle ⊢
    refine h.clean b' hdone (hidle.imp_right fun hw ↦ ?_)
    obtain ⟨q', c'', hq'⟩ := hw
    rw [await_proc, hself, hproc₁] at hq'
    by_cases hne : q' = q
    · rw [hne, update_self] at hq'
      obtain ⟨-, rfl⟩ := Pos.wait.inj hq'
      exact absurd hdone hundone
    · rw [update_of_ne hne] at hq'
      exact ⟨q', c'', hq'⟩
  · rw [await_buf, hbuf₁] at hd ⊢
    exact h.dirty b' hd
  · rw [await_buf, hbuf₁] at hall
    rw [await_disk, ← hs₁]
    split
    · refine disk_idestart (fun k ↦ ?_) (fun hdirty ↦ ?_) hk ?_
      · rw [hbuf, hdisk]
        exact h.disk k
      · rw [hbuf] at hdirty ⊢
        exact h.inRange_of_dirty ho hdirty
      · rwa [hbuf]
    · rw [hdisk]
      exact h.disk k hk hall
  · rw [await_idequeue, hidequeue₁] at hb'
    rw [await_buf, hbuf₁] at hd ⊢
    rw [await_disk, ← hs₁]
    split
    · next hfirst =>
      obtain rfl := Option.some.inj (hfirst.symm.trans hb')
      rw [← hbuf] at hd ⊢
      exact idestart_place hd
    · next hfirst =>
      rw [(idequeue_of_enqueue henqueue).resolve_left hfirst] at hb'
      rw [hdisk]
      exact h.started b' hb' hd

/-- The first request is served without an error. -/
theorem interrupt (h : Coherent c s) (ho : Owned s) (hd : Distinct s) (hqueue : Queued ql s) :
    Coherent c (ideintr true s) := by
  cases hidequeue : s.idequeue with
  | none => rwa [ideintr_of_none true hidequeue]
  | some b =>
    obtain ⟨q, c', hq⟩ := hqueue.waits hidequeue
    have hheld := (ho.fine q).fits
    rw [hq] at hheld
    have hin := h.inRange (ho.busy hheld.1)
    obtain ⟨hbuf, hproc, -, -, -, hidequeue'⟩ := ideintr_same true hidequeue
    have hserve : (serve true b s).buf = update s.buf b
      (served true (s.disk (s.buf b).place) (s.buf b)) := rfl
    have hkey : ∀ b', ((serve true b s).buf b').key = (s.buf b').key := key_update rfl
    have hdirty : ∀ b', ((serve true b s).buf b').dirty = true →
        b' ≠ b ∧ (s.buf b').dirty = true := by
      intro b' hb'
      rw [hserve] at hb'
      by_cases hne : b' = b
      · rw [hne, update_self] at hb'
        cases hb'
      · rw [update_of_ne hne] at hb'
        exact ⟨hne, hb'⟩
    have hdisk : ∀ k, InRange k → (∀ b', ((serve true b s).buf b').key = k →
        ((serve true b s).buf b').dirty = false) → (serve true b s).disk (place k) = c k := by
      intro k hk hall
      by_cases hb : (s.buf b).key = k ∧ (s.buf b).dirty = true
      · obtain ⟨rfl, hb⟩ := hb
        exact (h.started b hidequeue hb).trans (h.dirty b hb)
      · refine h.disk k hk fun b' hb' ↦ ?_
        by_cases hne : b' = b
        · rw [hne] at hb' ⊢
          exact Bool.eq_false_of_not_eq_true fun hdirty ↦ hb ⟨hb', hdirty⟩
        · have hall' := hall b'
          rw [hserve, update_of_ne hne] at hall'
          exact hall' hb'
    have hin' : ∀ b', ((serve true b s).buf b').dirty = true →
        InRange ((serve true b s).buf b').key := by
      intro b' hb'
      rw [hkey]
      exact h.inRange_of_dirty ho (hdirty b' hb').2
    refine ⟨fun q' dev sector hq' ↦ ?_, fun b' ↦ ?_, fun b' hdone hidle ↦ ?_, fun b' hb' ↦ ?_,
      fun k hk hall ↦ ?_, fun b' hb' hdirty' ↦ ?_⟩
    · rw [hproc] at hq'
      exact h.asked q' dev sector hq'
    · rw [hbuf, hserve]
      by_cases hne : b' = b
      · rw [hne, update_self]
        exact .inl hin
      · rw [update_of_ne hne]
        exact h.range b'
    · rw [hbuf, hserve] at hdone hidle ⊢
      rw [hproc] at hidle
      by_cases hne : b' = b
      · rw [hne, update_self]
        cases hb : (s.buf b).dirty with
        | false =>
          rw [served, if_pos ⟨hb, rfl⟩]
          exact h.disk_eq hd hin hb
        | true =>
          rw [served, if_neg fun hnot ↦ Bool.noConfusion (hb.symm.trans hnot.1)]
          exact h.dirty b hb
      · rw [update_of_ne hne] at hdone hidle ⊢
        exact h.clean b' hdone hidle
    · rw [hbuf] at hb' ⊢
      obtain ⟨hne, hold⟩ := hdirty b' hb'
      rw [hserve, update_of_ne hne]
      exact h.dirty b' hold
    · rw [hbuf] at hall
      rw [ideintr, hidequeue]
      dsimp only
      split
      · exact hdisk k hk hall
      · next c₁ _ => exact disk_idestart hdisk (hin' c₁) hk hall
    · rw [hbuf] at hdirty' ⊢
      rw [hidequeue'] at hb'
      have hnext : (serve true b s).idequeue = some b' := hb'
      rw [ideintr, hidequeue]
      dsimp only
      rw [hnext]
      exact idestart_place hdirty'

theorem done_of_uses (ho : Owned s) (hq : s.Uses q b) : (s.buf b).Done :=
  ((ho.fine q).done b hq.2).resolve_right (by rw [hq.1]; exact id)

/-- A process stores in a buffer that it holds. -/
theorem store (h : Coherent c s) (ho : Owned s) (hq : s.Uses q b) (data : Block) :
    Coherent c (s.setBuf b { s.buf b with data := data }) := by
  have hdone := done_of_uses ho hq
  have hbusy := ho.busy hq.2
  refine ⟨h.asked, fun b' ↦ ?_, fun b' hb' hidle ↦ ?_, fun b' hb' ↦ ?_, fun k hk hall ↦ ?_,
    fun b' hfirst hb' ↦ ?_⟩
  · rw [setBuf_buf]
    by_cases hne : b' = b
    · rw [hne, update_self]
      exact .inl (h.inRange hbusy)
    · rw [update_of_ne hne]
      exact h.range b'
  · rw [setBuf_buf] at hb' hidle ⊢
    by_cases hne : b' = b
    · rw [hne, update_self] at hidle
      rcases hidle with hfree | ⟨q', c', hq'⟩
      · cases hbusy.symm.trans hfree
      · exact absurd rfl (Queued.ne_of_uses ho hq hq')
    · rw [update_of_ne hne] at hb' hidle ⊢
      exact h.clean b' hb' hidle
  · rw [setBuf_buf] at hb' ⊢
    by_cases hne : b' = b
    · rw [hne, update_self] at hb'
      cases hdone.2.symm.trans hb'
    · rw [update_of_ne hne] at hb' ⊢
      exact h.dirty b' hb'
  · refine h.disk k hk fun b' hb' ↦ ?_
    by_cases hne : b' = b
    · rw [hne]
      exact hdone.2
    · have hall' := hall b'
      rw [setBuf_buf, update_of_ne hne] at hall'
      exact hall' hb'
  · rw [setBuf_buf] at hb' ⊢
    by_cases hne : b' = b
    · rw [hne, update_self] at hb'
      cases hdone.2.symm.trans hb'
    · rw [update_of_ne hne] at hb' ⊢
      exact h.started b' hfirst hb'

theorem bwrite (h : Coherent c s) (ho : Owned s) (hd : Distinct s) (hqueue : Queued ql s)
    (hq : s.Uses q b) :
    Coherent (update c (s.buf b).key (s.buf b).data)
      ((s.setBuf b { s.buf b with dirty := true }).setProc q
        { s.proc q with pos := .iderw .bwrite b }) := by
  have hdone := done_of_uses ho hq
  have hin := h.inRange (ho.busy hq.2)
  have hother : ∀ b', b' ≠ b → (s.buf b').key ≠ (s.buf b).key :=
    fun b' hne heq ↦ hne (hd b b' hin.dev_ne heq)
  refine ⟨fun q' dev sector hq' ↦ ?_, fun b' ↦ ?_, fun b' hb' hidle ↦ ?_, fun b' hb' ↦ ?_,
    fun k hk hall ↦ ?_, fun b' hfirst hb' ↦ ?_⟩
  · rw [setProc_proc] at hq'
    by_cases hne : q' = q
    · rw [hne, update_self] at hq'
      cases hq'
    · rw [update_of_ne hne] at hq'
      exact h.asked q' dev sector hq'
  · rw [setProc_buf, setBuf_buf]
    by_cases hne : b' = b
    · rw [hne, update_self]
      exact .inl hin
    · rw [update_of_ne hne]
      exact h.range b'
  · rw [setProc_buf, setBuf_buf] at hb' hidle ⊢
    by_cases hne : b' = b
    · rw [hne, update_self] at hb'
      cases hb'.2
    · rw [update_of_ne hne] at hb' hidle ⊢
      rw [update_of_ne (hother b' hne)]
      refine h.clean b' hb' (hidle.imp_right fun hw ↦ ?_)
      obtain ⟨q', c', hq'⟩ := hw
      rw [setProc_proc] at hq'
      by_cases hne' : q' = q
      · rw [hne', update_self] at hq'
        cases hq'
      · rw [update_of_ne hne'] at hq'
        exact ⟨q', c', hq'⟩
  · rw [setProc_buf, setBuf_buf] at hb' ⊢
    by_cases hne : b' = b
    · rw [hne, update_self]
      exact (update_self (s.buf b).key (s.buf b).data c).symm
    · rw [update_of_ne hne] at hb' ⊢
      rw [update_of_ne (hother b' hne)]
      exact h.dirty b' hb'
  · rw [setProc_buf, setBuf_buf] at hall
    have hne : k ≠ (s.buf b).key := by
      rintro rfl
      have hall' := hall b
      rw [update_self] at hall'
      cases hall' rfl
    rw [update_of_ne hne]
    refine h.disk k hk fun b' hb' ↦ ?_
    by_cases hb : b' = b
    · rw [hb]
      exact hdone.2
    · have hall' := hall b'
      rw [update_of_ne hb] at hall'
      exact hall' hb'
  · obtain ⟨q', c', hq'⟩ := hqueue.waits hfirst
    have hne := Queued.ne_of_uses ho hq hq'
    rw [setProc_buf, setBuf_buf, update_of_ne hne] at hb' ⊢
    exact h.started b' hfirst hb'

/-- A process releases a buffer that is as it is on the disk. -/
theorem release (h : Coherent c s) (ho : Owned s) (hd : Distinct s) (hq : s.Uses q b)
    (hdata : (s.buf b).data = s.disk (s.buf b).place) : Coherent c (release q b s) := by
  have hdone := done_of_uses ho hq
  have hin := h.inRange (ho.busy hq.2)
  have hbuf : (Bio.release q b s).buf = update s.buf b { s.buf b with busy := false } := rfl
  have hdisk : (Bio.release q b s).disk = s.disk := rfl
  have hpos : ∀ q', ((Bio.release q b s).proc q').pos = (s.proc q').pos :=
    Queued.pos_setProc (fun _ ↦ rfl) rfl
  refine ⟨fun q' dev sector hq' ↦ ?_, fun b' ↦ ?_, fun b' hb' hidle ↦ ?_, fun b' hb' ↦ ?_,
    fun k hk hall ↦ ?_, fun b' hfirst hb' ↦ ?_⟩
  · rw [hpos] at hq'
    exact h.asked q' dev sector hq'
  · rw [hbuf]
    by_cases hne : b' = b
    · rw [hne, update_self]
      exact .inl hin
    · rw [update_of_ne hne]
      exact h.range b'
  · rw [hbuf] at hb' hidle ⊢
    by_cases hne : b' = b
    · rw [hne, update_self]
      exact hdata.trans (h.disk_eq hd hin hdone.2)
    · rw [update_of_ne hne] at hb' hidle ⊢
      refine h.clean b' hb' (hidle.imp_right fun hw ↦ ?_)
      obtain ⟨q', c', hq'⟩ := hw
      exact ⟨q', c', (hpos q').symm.trans hq'⟩
  · rw [hbuf] at hb' ⊢
    by_cases hne : b' = b
    · rw [hne, update_self] at hb'
      cases hdone.2.symm.trans hb'
    · rw [update_of_ne hne] at hb' ⊢
      exact h.dirty b' hb'
  · rw [hdisk]
    refine h.disk k hk fun b' hb' ↦ ?_
    by_cases hne : b' = b
    · rw [hne]
      exact hdone.2
    · have hall' := hall b'
      rw [hbuf, update_of_ne hne] at hall'
      exact hall' hb'
  · rw [hbuf] at hb' ⊢
    rw [hdisk]
    by_cases hne : b' = b
    · rw [hne, update_self] at hb'
      cases hdone.2.symm.trans hb'
    · rw [update_of_ne hne] at hb' ⊢
      exact h.started b' hfirst hb'

theorem trans (h : Coherent c s) (hl : Listed l s) (ho : Owned s) (hqueue : Queued ql s)
    (hd : Distinct s) (ht : Trans s a t) (ha : Careful ⟨s, a, t⟩) :
    Coherent (written c ⟨s, a, t⟩) t := by
  cases ht with
  | @bread q dev sector hq =>
    refine h.calm rfl rfl rfl (fun q' dev' sector' hq' ↦ ?_) fun q' c' b hq' _ ↦ ?_
    · rw [setProc_proc] at hq'
      by_cases hne : q' = q
      · rw [hne, update_self] at hq'
        obtain ⟨rfl, rfl⟩ := Pos.bget.inj hq'
        exact ha
      · rw [update_of_ne hne] at hq'
        exact h.asked q' dev' sector' hq'
    · rw [setProc_proc] at hq'
      by_cases hne : q' = q
      · rw [hne, update_self] at hq'
        cases hq'
      · rwa [update_of_ne hne] at hq'
  | @hit q dev sector b hq hchan hfind hfree =>
    have hkey : (s.buf b).key = (dev, sector) := Prod.ext (hl.block hfind).1 (hl.block hfind).2
    refine h.got ho hfree rfl (ho.idle b hfree) ?_
    exact hkey ▸ h.asked q dev sector hq
  | sleep => exact h.sleep _
  | @miss q dev sector b hq hchan hfind hfree =>
    exact h.got ho (hl.free hfree) rfl rfl (h.asked q dev sector hq)
  | iderw hq hbusy hdone henqueue => exact h.start ho hq henqueue
  | @resume q c' b hq hchan =>
    refine h.calm (await_buf ..) (await_disk ..) (await_idequeue ..)
      (fun q' dev sector hq' ↦ ?_) fun q' c'' b' hq' _ ↦ ?_
    · rw [await_proc] at hq'
      by_cases hne : q' = q
      · rw [hne, update_self, awaiting] at hq'
        split at hq' <;> cases hq'
      · rw [update_of_ne hne] at hq'
        exact h.asked q' dev sector hq'
    · rw [await_proc] at hq'
      by_cases hne : q' = q
      · rw [hne, update_self, awaiting] at hq'
        split at hq'
        · cases hq'
        · rw [hne, hq]
          exact hq'
      · rwa [update_of_ne hne] at hq'
  | ideintr ok =>
    obtain rfl : ok = true := ha
    exact h.interrupt ho hd hqueue
  | store hq => exact h.store ho hq _
  | bwrite hq hbusy => exact h.bwrite ho hd hqueue hq
  | brelse hq hbusy => exact h.release ho hd hq ha
  | kill => exact h.sleep none

end Coherent

end CS537.Bio
