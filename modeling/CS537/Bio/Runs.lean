import CS537.Bio.Coherence

/-!
# Runs of the buffer cache

What holds of the cache in every run, for all processes at once: who has a buffer, which one `bget`
takes, what `bread` returns, and where the kernel may panic.
-/

namespace CS537.Bio

open Function Transition Tally

variable {s t : Kernel} {q : Slot} {b : Bufno} {a : Act} {disk : ℕ × ℕ → Block} {havedisk1 : Bool}
  {tr : List (Move Kernel Act)}

/-! ## Boot -/

theorem binit_fold (bs : List Bufno) (s : Kernel) :
    let s' := bs.foldl (fun s b ↦ (s.setBuf b { s.buf b with dev := -1 }).pushFront b) s
    (∀ b, s'.buf b = if b ∈ bs then { s.buf b with dev := -1 } else s.buf b) ∧ s'.proc = s.proc ∧
      s'.disk = s.disk ∧ s'.idequeue = s.idequeue := by
  induction bs generalizing s with
  | nil => exact ⟨fun b ↦ by simp, rfl, rfl, rfl⟩
  | cons c bs ih =>
    obtain ⟨hbuf, hproc, hdisk, hidequeue⟩ :=
      ih ((s.setBuf c { s.buf c with dev := -1 }).pushFront c)
    refine ⟨fun b ↦ ?_, hproc, hdisk, hidequeue⟩
    rw [List.foldl_cons, hbuf, pushFront_buf, setBuf_buf]
    by_cases hb : b = c
    · subst hb
      rw [update_self, if_pos (List.mem_cons_self ..), ite_self]
    · rw [update_of_ne hb]
      simp only [List.mem_cons, hb, false_or]

theorem boot_buf (b : Bufno) :
    (boot disk havedisk1).buf b = ⟨false, false, false, -1, 0, fun _ ↦ 0⟩ := by
  rw [boot, binit, (binit_fold _ _).1, if_pos (List.mem_finRange b)]
  rfl

theorem boot_proc (q : Slot) : (boot disk havedisk1).proc q = ⟨.user, none, []⟩ := by
  rw [boot, binit, (binit_fold _ _).2.1]
  rfl

theorem boot_disk : (boot disk havedisk1).disk = disk := by
  rw [boot, binit, (binit_fold _ _).2.2.1]
  rfl

theorem boot_idequeue : (boot disk havedisk1).idequeue = none := by
  rw [boot, binit, (binit_fold _ _).2.2.2]
  rfl

theorem owned_boot : Owned (boot disk havedisk1) := by
  refine ⟨fun b ↦ ?_, fun q ↦ ⟨?_, fun b hb ↦ ?_⟩, fun b _ ↦ ?_⟩
  · rw [boot_buf]
    exact tally_eq_zero fun q ↦ by rw [boot_proc]; rfl
  · rw [boot_proc]
    trivial
  · rw [boot_proc] at hb
    cases hb
  · rw [boot_buf]

theorem queued_boot : Queued [] (boot disk havedisk1) := by
  refine ⟨boot_idequeue, List.nodup_nil, fun b ↦ iff_of_false List.not_mem_nil ?_⟩
  rintro ⟨-, q, c, hq⟩
  rw [boot_proc] at hq
  cases hq

theorem alert_boot : Alert (boot disk havedisk1) := by
  intro q b hchan
  rw [boot_proc] at hchan
  cases hchan

theorem distinct_boot : Distinct (boot disk havedisk1) := by
  intro b b' hdev
  rw [boot_buf] at hdev
  exact absurd rfl hdev

theorem coherent_boot : Coherent (fun k ↦ disk (place k)) (boot disk havedisk1) := by
  refine ⟨fun q dev sector hq ↦ ?_, fun b ↦ ?_, fun b hdone ↦ ?_, fun b hdirty ↦ ?_, fun k _ _ ↦ ?_,
    fun b hfirst ↦ ?_⟩
  · rw [boot_proc] at hq
    cases hq
  · rw [boot_buf]
    exact .inr rfl
  · rw [boot_buf] at hdone
    cases hdone.1
  · rw [boot_buf] at hdirty
    cases hdirty
  · rw [boot_disk]
  · rw [boot_idequeue] at hfirst
    cases hfirst

/-! ## Runs -/

/-- The requests that have not been served, in the order in which they were made. -/
def requests (tr : List (Move Kernel Act)) : List Bufno := tr.foldl enqueued []

/-- The invariants of the cache. -/
structure Good (tr : List (Move Kernel Act)) (s : Kernel) : Prop where
  listed : Listed (recency tr) s
  owned : Owned s
  queued : Queued (requests tr) s
  alert : Alert s
  distinct : Distinct s

theorem Good.run (h : Run step (boot disk havedisk1) tr s) : Good tr s := by
  induction h with
  | nil => exact ⟨lru_order (.nil _), owned_boot, queued_boot, alert_boot, distinct_boot⟩
  | @snoc s t tr a hrun hstep ih =>
    obtain ⟨hl, ho, hqueue, halert, hd⟩ := ih
    have ht := trans_of_step hstep
    refine ⟨lru_order (hrun.snoc hstep), ho.trans hl (fun b ↦ hqueue.waits) ht, ?_,
      halert.trans ho hl ht, hd.trans hl ht⟩
    rw [requests, List.foldl_append]
    exact hqueue.trans ho hl ht

theorem Reach.good (h : Reach s) : ∃ tr, Good tr s := by
  obtain ⟨s₀, tr, ⟨disk, havedisk1, rfl⟩, hrun, -⟩ := h
  exact ⟨tr, .run hrun⟩

/-- What has last been written to each block, or what the disk had at the start. -/
def content (disk : ℕ × ℕ → Block) (tr : List (Move Kernel Act)) : Key → Block :=
  tr.foldl written fun k ↦ disk (place k)

theorem coherent_run (h : Run step (boot disk havedisk1) tr s) (hsafe : ∀ m ∈ tr, Careful m) :
    Coherent (content disk tr) s := by
  induction h with
  | nil => exact coherent_boot
  | @snoc s t tr a hrun hstep ih =>
    obtain ⟨hl, ho, hqueue, halert, hd⟩ := Good.run hrun
    rw [content, List.foldl_append]
    exact (ih fun m hm ↦ hsafe m (List.mem_append_left _ hm)).trans hl ho hqueue hd
      (trans_of_step hstep) (hsafe _ (by simp))

/-! ## What `bget` does -/

theorem Listed.findBlock_none {l : List Bufno} {dev sector : BitVec 32} (h : Listed l s)
    (hnone : ∀ b, (s.buf b).key ≠ (dev, sector)) : findBlock dev sector s = some none := by
  rw [h.findBlock_eq, Option.some_inj, Option.map_eq_none_iff, List.find?_eq_none]
  intro b _
  have hb := hnone b
  rw [Buf.key, ne_eq, Prod.mk_inj] at hb
  simpa using hb

theorem Listed.bget_eq_error {l : List Bufno} {dev sector : BitVec 32} {e : String}
    (h : Listed l s) : bget q dev sector s = .error e ↔
      (∀ b, (s.buf b).busy = true ∧ (s.buf b).key ≠ (dev, sector)) ∧ e = "bget: no buffers" := by
  constructor
  · intro hbget
    rw [bget, h.findBlock_eq] at hbget
    cases hfound : l.find? fun b ↦ (s.buf b).dev = dev ∧ (s.buf b).sector = sector with
    | some b =>
      rw [hfound] at hbget
      simp only [Option.map_some] at hbget
      split at hbget <;> cases hbget
    | none =>
      rw [hfound, h.findFree_eq] at hbget
      cases hfree : l.reverse.find? fun b ↦ (s.buf b).busy = false with
      | some b =>
        rw [hfree] at hbget
        cases hbget
      | none =>
        rw [hfree] at hbget
        rw [List.find?_eq_none] at hfound hfree
        refine ⟨fun b ↦ ⟨?_, fun hkey ↦ ?_⟩, (Except.error.inj hbget).symm⟩
        · simpa using hfree b (List.mem_reverse.mpr (h.mem b))
        · exact absurd (Prod.mk.inj hkey) (by simpa using hfound b (h.mem b))
  · rintro ⟨hall, rfl⟩
    have hfull : findFree s = some none := by
      rw [h.findFree_eq, Option.some_inj, Option.map_eq_none_iff, List.find?_eq_none]
      intro b _
      simp [(hall b).1]
    rw [bget, h.findBlock_none fun b ↦ (hall b).2, hfull]
    rfl

/-- **The buffer that `bget` takes.** In every run: the one that holds the block, if there is one,
for which it waits while it is busy. Otherwise, of the buffers that nobody holds, the one released
longest ago; it panics if all are busy. -/
theorem bget_spec {dev sector : BitVec 32} (h : Run step (boot disk havedisk1) tr s)
    (q : Slot) (hdev : dev ≠ -1) :
    (∀ b, (s.buf b).key = (dev, sector) → bget q dev sector s =
      if (s.buf b).busy = false then
        .ok (got q dev sector b (s.setBuf b { s.buf b with busy := true }))
      else .ok (s.setProc q { s.proc q with chan := some b })) ∧
    ((∀ b, (s.buf b).key ≠ (dev, sector)) →
      (∀ l₁ b l₂, recency tr = l₁ ++ b :: l₂ → (s.buf b).busy = false →
        (∀ b' ∈ l₂, (s.buf b').busy = true) → bget q dev sector s =
          .ok (got q dev sector b
            (s.setBuf b ⟨true, false, false, dev, sector, (s.buf b).data⟩))) ∧
      ((∀ b, (s.buf b).busy = true) → bget q dev sector s = .error "bget: no buffers")) := by
  obtain ⟨hl, -, -, -, hd⟩ := Good.run h
  have hfind := hl.findBlock_eq dev sector
  refine ⟨fun b hb ↦ ?_, fun hnone ↦ ⟨fun l₁ b l₂ hlist hfree hbusy ↦ ?_, fun hbusy ↦ ?_⟩⟩
  · cases hfound : (recency tr).find? fun b ↦ (s.buf b).dev = dev ∧ (s.buf b).sector = sector with
    | none =>
      rw [List.find?_eq_none] at hfound
      exact absurd (Prod.mk.inj hb) (by simpa using hfound b (hl.mem b))
    | some b' =>
      have hb' : (s.buf b').dev = dev ∧ (s.buf b').sector = sector := by
        simpa using List.find?_some hfound
      obtain rfl : b = b' := hd b' b (by rw [Buf.key, hb'.1]; exact hdev)
        (hb.trans (Prod.ext hb'.1 hb'.2).symm)
      rw [hfound] at hfind
      rw [bget, hfind]
      rfl
  · have hfound : findFree s = some (some (.buf b)) := by
      have hskip : (l₂.reverse.find? fun b ↦ (s.buf b).busy = false) = none := by
        rw [List.find?_eq_none]
        intro b' hb'
        simp [hbusy b' (List.mem_reverse.mp hb')]
      rw [hl.findFree_eq, hlist, List.reverse_append, List.reverse_cons, List.append_assoc,
        List.find?_append, hskip, Option.none_or, List.singleton_append, List.find?_cons]
      simp [hfree]
    rw [bget, hl.findBlock_none hnone, hfound]
    rfl
  · exact hl.bget_eq_error.mpr ⟨fun b ↦ ⟨hbusy b, hnone b⟩, rfl⟩

/-- Two processes read a block each, and the first releases its buffer. -/
def releasing : List Act :=
  asking ++ [.ideintr true, .resume 0, .bread 1 1 3, .bget 1, .brelse 0 0]

/-- The buffer `1` is busy and `0` has just been released, so the next block comes into `2`. -/
theorem bget_spec_releasing : bget 0 1 4 (after true releasing) =
    .ok (got 0 1 4 2 ((after true releasing).setBuf 2 ⟨true, false, false, 1, 4,
      ((after true releasing).buf 2).data⟩)) :=
  ((bget_spec (run_after (by decide +kernel)) 0 (by decide)).2 (by decide +kernel)).1
    [0, 9, 8, 7, 6, 5, 4, 3] 2 [1] (by decide +kernel) (by decide +kernel) (by decide +kernel)

/-! ## Owners -/

/-- A buffer has at most one owner, and is busy exactly as long as it has one. Its block is in no
other buffer, and whoever may use it finds it filled and written back. -/
structure OneOwner (b : Bufno) (s : Kernel) : Prop where
  busy : (s.buf b).busy = true ↔ ∃ q, b ∈ (s.proc q).held
  one : ∀ q q', b ∈ (s.proc q).held → b ∈ (s.proc q').held → q = q'
  block : ∀ b', (s.buf b).dev ≠ -1 → (s.buf b').key = (s.buf b).key → b' = b
  done : ∀ q, s.Uses q b → (s.buf b).Done

/-- **One owner.** In every state that is reached every buffer is as `OneOwner` says. -/
theorem one_owner (h : Reach s) (b : Bufno) : OneOwner b s := by
  obtain ⟨tr, hl, ho, hqueue, halert, hd⟩ := h.good
  refine ⟨⟨fun hbusy ↦ ?_, fun hheld ↦ ?_⟩, fun q q' ↦ ho.unique, fun b' ↦ hd b b',
    fun q ↦ Coherent.done_of_uses ho⟩
  · exact ho.holder hbusy
  · obtain ⟨q, hq⟩ := hheld
    exact ho.busy hq

theorem one_owner_asking : OneOwner 0 (after true asking) :=
  one_owner (reach_after (by decide +kernel)) 0

/-! ## Contents -/

theorem step_getD (h : (step a s).isSome) : step a s = some ((step a s).getD s) := by
  rw [← Option.get_eq_getD (h := h), Option.some_get]

/-- The process is in a call of `bread` for the block. -/
def Pos.Wants (k : Key) : Pos → Prop
  | .bget dev sector => (dev, sector) = k
  | .iderw (.bread dev sector) _ => (dev, sector) = k
  | .wait (.bread dev sector) _ => (dev, sector) = k
  | _ => False

/-- A call of `bread` returns from `bget`, with a buffer that is valid, or from `iderw`. -/
theorem returns {dev sector : BitVec 32} (ht : Trans s a t)
    (hwant : (s.proc q).pos.Wants (dev, sector)) (hret : (t.proc q).pos = .user) :
    (∃ b, findBlock dev sector s = some (some (.buf b)) ∧ (s.buf b).busy = false ∧
      (s.buf b).valid = true ∧
      t = got q dev sector b (s.setBuf b { s.buf b with busy := true })) ∨
    ∃ b, (s.proc q).pos = .wait (.bread dev sector) b ∧ (s.buf b).Done ∧
      t = await q (.bread dev sector) b s := by
  -- so only moves of this process count
  have hmove : (t.proc q).pos ≠ (s.proc q).pos := by
    intro heq
    rw [← heq, hret] at hwant
    exact hwant
  cases ht with
  | @bread q₀ dev' sector' hq =>
    rw [setProc_proc] at hret hmove
    by_cases hne : q = q₀
    · rw [hne, update_self] at hret
      cases hret
    · exact absurd (by rw [update_of_ne hne]) hmove
  | @hit q₀ dev' sector' b hq hchan hfind hfree =>
    by_cases hne : q = q₀
    · subst hne
      rw [hq] at hwant
      obtain ⟨rfl, rfl⟩ := Prod.mk.inj hwant
      have hvalid : (s.buf b).valid = true := by
        rw [Bio.got, setProc_proc, update_self, setBuf_buf, update_self] at hret
        by_contra hvalid
        rw [if_neg hvalid] at hret
        cases hret
      exact .inl ⟨b, hfind, hfree, hvalid, rfl⟩
    · exact absurd (by rw [Bio.got, setProc_proc, update_of_ne hne]; rfl) hmove
  | @sleep q₀ dev' sector' b =>
    have hpos : ∀ q', ((s.setProc q₀ { s.proc q₀ with chan := some b }).proc q').pos =
        (s.proc q').pos := Queued.pos_setProc (fun _ ↦ rfl) rfl
    exact (hmove (hpos q)).elim
  | @miss q₀ dev' sector' b hq =>
    by_cases hne : q = q₀
    · subst hne
      rw [Bio.got, setProc_proc, update_self, setBuf_buf, update_self] at hret
      cases hret
    · exact absurd (by rw [Bio.got, setProc_proc, update_of_ne hne]; rfl) hmove
  | @iderw q₀ c b s' hq hbusy hundone henqueue =>
    generalize hs₁ : (if s'.idequeue = some b then idestart b s' else s') = s₁ at *
    obtain ⟨-, -, hbuf₁, hproc₁, -⟩ := start_same henqueue hs₁
    by_cases hne : q = q₀
    · subst hne
      rw [await_proc, update_self, awaiting, hbuf₁, if_neg hundone] at hret
      cases hret
    · exact absurd (by rw [await_proc, update_of_ne hne, hproc₁]) hmove
  | @resume q₀ c b hq =>
    by_cases hne : q = q₀
    · subst hne
      rw [hq] at hwant
      have hdone : (s.buf b).Done := by
        by_contra hundone
        rw [await_proc, update_self, awaiting, if_neg hundone] at hret
        cases hret
      cases c with
      | bwrite => exact hwant.elim
      | bread dev' sector' =>
        obtain ⟨rfl, rfl⟩ := Prod.mk.inj hwant
        exact .inr ⟨b, hq, hdone, rfl⟩
    · exact absurd (by rw [await_proc, update_of_ne hne]) hmove
  | ideintr ok =>
    cases hidequeue : s.idequeue with
    | none => exact absurd (by rw [ideintr_of_none ok hidequeue]) hmove
    | some b =>
      obtain ⟨-, hproc, -⟩ := ideintr_same ok hidequeue
      exact absurd (by rw [hproc]; rfl) hmove
  | store => exact absurd rfl hmove
  | @bwrite q₀ b hq =>
    by_cases hne : q = q₀
    · rw [setProc_proc, hne, update_self] at hret
      cases hret
    · exact absurd (by rw [setProc_proc, update_of_ne hne]; rfl) hmove
  | @brelse q₀ b =>
    have hpos : ∀ q', ((release q₀ b s).proc q').pos = (s.proc q').pos :=
      Queued.pos_setProc (fun _ ↦ rfl) rfl
    exact (hmove (hpos q)).elim
  | @kill q₀ =>
    have hpos : ∀ q', ((s.setProc q₀ { s.proc q₀ with chan := none }).proc q').pos =
        (s.proc q').pos := Queued.pos_setProc (fun _ ↦ rfl) rfl
    exact (hmove (hpos q)).elim

/-- **Coherence.** When a call of `bread` returns, in a run whose moves are careful, the process
holds a buffer with the block that it has asked for, and nobody else holds it; the data are those
last written to the block by `bwrite`, by whichever process, or those of the disk at the start. -/
theorem bread_coherent {k : Key} (h : Run step (boot disk havedisk1) tr s)
    (hsafe : ∀ m ∈ tr, Careful m) (hstep : step a s = some t) (hwant : (s.proc q).pos.Wants k)
    (hret : (t.proc q).pos = .user) :
    ∃ b ∈ (t.proc q).held, (t.buf b).key = k ∧ (t.buf b).data = content disk tr k ∧
      ∀ q', b ∈ (t.proc q').held → q' = q := by
  obtain ⟨hl, ho, hqueue, halert, hd⟩ := Good.run h
  have hc := coherent_run h hsafe
  have ht := trans_of_step hstep
  have ho' : Owned t := ho.trans hl (fun b ↦ hqueue.waits) ht
  suffices hmain : ∃ b ∈ (t.proc q).held, (t.buf b).key = k ∧
      (t.buf b).data = content disk tr k by
    obtain ⟨b, hheld, hkey, hdata⟩ := hmain
    exact ⟨b, hheld, hkey, hdata, fun q' hq' ↦ ho'.unique hq' hheld⟩
  obtain ⟨dev, sector⟩ := k
  obtain ⟨b, hfind, hfree, hvalid, rfl⟩ | ⟨b, hq, hdone, rfl⟩ := returns ht hwant hret
  · -- the buffer was in the cache, and nobody held it
    have hkey : (s.buf b).key = (dev, sector) := Prod.ext (hl.block hfind).1 (hl.block hfind).2
    have hdata := hc.clean b ⟨hvalid, ho.idle b hfree⟩ (.inl hfree)
    refine ⟨b, ?_, ?_⟩
    · rw [Bio.got, setProc_proc, update_self]
      exact List.mem_cons_self ..
    · rw [Bio.got, setProc_buf, setBuf_buf, update_self, ← hkey]
      exact ⟨rfl, hdata⟩
  · -- the disk has filled it
    have hfits := (ho.fine q).fits
    rw [hq] at hfits
    have hkey : (s.buf b).key = (dev, sector) := Prod.ext hfits.2.1 hfits.2.2
    refine ⟨b, ?_, ?_⟩
    · rw [await_proc, update_self, awaiting, if_pos hdone]
      exact hfits.1
    · rw [await_buf, ← hkey]
      exact ⟨rfl, hc.clean b hdone (.inr ⟨q, _, hq⟩)⟩

/-- The process `0` writes a block and releases its buffer; then ten others take all the buffers,
that one too, and when one has been released the process asks for the block again. -/
def recycling : List Act :=
  asking ++ [.ideintr true, .resume 0, .store 0 0 fun _ ↦ 7, .bwrite 0 0, .iderw 0, .ideintr true,
    .resume 0, .brelse 0 0] ++
    (List.range 10).flatMap (fun i ↦ [.bread (Fin.ofNat _ (i + 1)) 1 (BitVec.ofNat 32 (i + 3)),
      .bget (Fin.ofNat _ (i + 1))]) ++
    [.iderw 1, .ideintr true, .resume 1, .brelse 1 1] ++ asking ++ [.ideintr true]

/-- The block has come into another buffer, with what has been written to it. -/
theorem bread_coherent_recycling :
    let s := after true recycling
    let t := (step (.resume 0) s).getD s
    (t.buf 0).key = (1, 12) ∧
    content (fun _ _ ↦ 0) (moves step recycling (boot (fun _ _ ↦ 0) true)) (1, 2) = (fun _ ↦ 7) ∧
    ∃ b ∈ (t.proc 0).held, (t.buf b).key = (1, 2) ∧ (t.buf b).data = content (fun _ _ ↦ 0)
        (moves step recycling (boot (fun _ _ ↦ 0) true)) (1, 2) ∧
      ∀ q', b ∈ (t.proc q').held → q' = 0 := by
  have hpos : ((after true recycling).proc 0).pos = .wait (.bread 1 2) 1 := by decide +kernel
  refine ⟨by decide +kernel, by decide +kernel, bread_coherent (run_after (by decide +kernel))
    (by decide +kernel) (step_getD (by decide +kernel)) ?_ (by decide +kernel)⟩
  rw [hpos]
  rfl

/-! ## The queue -/

/-- **Requests are served in turn.** In every run the queue has the requests not yet served, each
once, in the order in which they were made. -/
theorem queue_fifo (h : Run step (boot disk havedisk1) tr s) : Queued (requests tr) s :=
  (Good.run h).queued

theorem queue_fifo_asking : requests (moves step asking (boot (fun _ _ ↦ 0) true)) = [0] ∧
    Queued (requests (moves step asking (boot (fun _ _ ↦ 0) true))) (after true asking) :=
  ⟨by decide +kernel, queue_fifo (run_after (by decide +kernel))⟩

/-- **Nobody sleeps for nothing.** A process asleep in `bget` waits for a buffer that somebody
holds, and one asleep in `iderw` for its own request, which is in the queue. -/
theorem sleepers (h : Run step (boot disk havedisk1) tr s) (hchan : (s.proc q).chan = some b) :
    (∃ dev sector q', (s.proc q).pos = .bget dev sector ∧ b ∈ (s.proc q').held) ∨
      ∃ c, (s.proc q).pos = .wait c b ∧ b ∈ requests tr := by
  obtain ⟨hl, ho, hqueue, halert, hd⟩ := Good.run h
  have hblocked := halert q b hchan
  cases hpos : (s.proc q).pos with
  | user => exact (hpos ▸ hblocked).elim
  | iderw c b' => exact (hpos ▸ hblocked).elim
  | bget dev sector =>
    rw [hpos] at hblocked
    obtain ⟨q', hq'⟩ := ho.holder hblocked
    exact .inl ⟨dev, sector, q', rfl, hq'⟩
  | wait c b' =>
    rw [hpos] at hblocked
    obtain ⟨rfl, hundone⟩ := hblocked
    exact .inr ⟨c, rfl, (hqueue.mem b').mpr ⟨hundone, q, c, hpos⟩⟩

theorem sleepers_asking :
    (∃ dev sector q', ((after true asking).proc 0).pos = .bget dev sector ∧
      0 ∈ ((after true asking).proc q').held) ∨
    ∃ c, ((after true asking).proc 0).pos = .wait c 0 ∧
      0 ∈ requests (moves step asking (boot (fun _ _ ↦ 0) true)) :=
  sleepers (run_after (by decide +kernel)) (by decide +kernel)

/-! ## Panics -/

theorem Queued.exists_enqueue {ql : List Bufno} (h : Queued ql s) (hb : b ∉ ql) :
    ∃ s', Bio.enqueue b s = some s' := by
  simp only [Bio.enqueue]
  split
  · exact ⟨_, rfl⟩
  · next a hsome =>
    have hcut := h.setQnext hb
    have hne : ql ≠ [] := by
      rintro rfl
      cases hsome.symm.trans h.chain.head_eq
    rw [hsome] at hcut
    rw [hcut.last_eq h.length_le, List.getLast?_eq_some_getLast hne]
    exact ⟨_, rfl⟩

theorem Queued.iderw_eq_error {ql : List Bufno} {c : Call} {e : String} (h : Queued ql s)
    (ho : Owned s) (hq : (s.proc q).pos = .iderw c b) : iderw q c b s = .error e ↔
      (s.buf b).dev ≠ 0 ∧ s.havedisk1 = false ∧ e = "iderw: ide disk 1 not present" := by
  have hfits := (ho.fine q).fits
  rw [hq] at hfits
  obtain ⟨hheld, -, hundone⟩ := hfits
  obtain ⟨s', henqueue⟩ := h.exists_enqueue (h.not_mem ho hq)
  rw [iderw, if_neg (by simp [ho.busy hheld]), if_neg hundone, henqueue]
  by_cases hdisk : (s.buf b).dev ≠ 0 ∧ s.havedisk1 = false
  · rw [if_pos hdisk]
    exact ⟨fun herror ↦ ⟨hdisk.1, hdisk.2, (Except.error.inj herror).symm⟩,
      fun herror ↦ congrArg Except.error herror.2.2.symm⟩
  · rw [if_neg hdisk]
    refine ⟨fun herror ↦ ?_, fun herror ↦ absurd ⟨herror.1, herror.2.1⟩ hdisk⟩
    cases herror

/-- **Panics.** In every state that is reached a move ends in a panic only in two ways: no buffer is
free for a block that is in none, or there is no second disk. -/
theorem panic_iff (h : Reach s) (a : Act) (e : String) : move a s = some (.error e) ↔
    (∃ q dev sector, a = .bget q ∧ (s.proc q).pos = .bget dev sector ∧ (s.proc q).chan = none ∧
      (∀ b, (s.buf b).busy = true ∧ (s.buf b).key ≠ (dev, sector)) ∧ e = "bget: no buffers") ∨
    ∃ q c b, a = .iderw q ∧ (s.proc q).pos = .iderw c b ∧ (s.buf b).dev ≠ 0 ∧
      s.havedisk1 = false ∧ e = "iderw: ide disk 1 not present" := by
  obtain ⟨tr, hl, ho, hqueue, halert, hd⟩ := h.good
  constructor
  · intro hmove
    cases a with
    | bread q dev sector =>
      obtain ⟨-, hmove⟩ := Option.ite_none_right_eq_some.mp hmove
      cases hmove
    | bget q =>
      simp only [move] at hmove
      split at hmove
      · next dev sector hpos hchan =>
        obtain ⟨hall, he⟩ := hl.bget_eq_error.mp (Option.some.inj hmove)
        exact .inl ⟨q, dev, sector, rfl, hpos, hchan, hall, he⟩
      · cases hmove
    | iderw q =>
      simp only [move] at hmove
      split at hmove
      · next c b hpos =>
        obtain ⟨hdev, hdisk, he⟩ := (hqueue.iderw_eq_error ho hpos).mp (Option.some.inj hmove)
        exact .inr ⟨q, c, b, rfl, hpos, hdev, hdisk, he⟩
      · cases hmove
    | resume q =>
      simp only [move] at hmove
      split at hmove <;> cases hmove
    | ideintr ok => cases hmove
    | store q b data =>
      obtain ⟨-, hmove⟩ := Option.ite_none_right_eq_some.mp hmove
      cases hmove
    | bwrite q b =>
      obtain ⟨hq, hmove⟩ := Option.ite_none_right_eq_some.mp hmove
      rw [Option.some_inj, bwrite, ho.busy hq.2] at hmove
      cases hmove
    | brelse q b =>
      obtain ⟨hq, hmove⟩ := Option.ite_none_right_eq_some.mp hmove
      rw [Option.some_inj, brelse, ho.busy hq.2] at hmove
      cases hmove
    | kill q => cases hmove
  · rintro (⟨q, dev, sector, rfl, hpos, hchan, hfull⟩ | ⟨q, c, b, rfl, hpos, hdisk⟩)
    · simp only [move, hpos, hchan]
      rw [hl.bget_eq_error.mpr hfull]
    · simp only [move, hpos]
      rw [(hqueue.iderw_eq_error ho hpos).mpr hdisk]

theorem panic_iff_no_disk : move (.iderw 0) (after false [.bread 0 1 2, .bget 0]) =
    some (.error "iderw: ide disk 1 not present") :=
  (panic_iff (reach_after (by decide +kernel)) _ _).mpr (.inr ⟨0, .bread 1 2, 0, rfl,
    by decide +kernel, by decide +kernel, by decide +kernel, rfl⟩)

end CS537.Bio
