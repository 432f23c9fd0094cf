import CS537.Bio.Owners

/-!
# The queue of disk requests

The queue leads through the buffers for which a process waits and whose request has not been served,
each once, in the order of the calls of `iderw`. Whoever sleeps there has its buffer in the queue,
so that the interrupt handler will wake it; whoever sleeps in `bget` does so on a busy buffer, so
that `brelse` will.
-/

namespace CS537.Bio

open Function Transition

variable {s t : Kernel} {q : Slot} {b : Bufno} {a : Act} {l ql : List Bufno}

/-- The queue leads through the buffers `ql`. -/
structure Queued (ql : List Bufno) (s : Kernel) : Prop where
  chain : Slist.Chain s.qnext s.idequeue ql
  nodup : ql.Nodup
  mem : ∀ b, b ∈ ql ↔ ¬(s.buf b).Done ∧ ∃ q c, (s.proc q).pos = .wait c b

/-- The queue after a move. -/
def enqueued (ql : List Bufno) (m : Move Kernel Act) : List Bufno :=
  match m.act with
  | .iderw q =>
    match (m.src.proc q).pos with
    | .iderw _ b => ql ++ [b]
    | _ => ql
  | .ideintr _ => ql.tail
  | _ => ql

namespace Queued

theorem congr (h : Queued ql s) (hqnext : t.qnext = s.qnext) (hidequeue : t.idequeue = s.idequeue)
    (hpos : ∀ q c b, ¬(t.buf b).Done →
      ((t.proc q).pos = .wait c b ↔ (s.proc q).pos = .wait c b))
    (hdone : ∀ q c b, (s.proc q).pos = .wait c b → ((t.buf b).Done ↔ (s.buf b).Done)) :
    Queued ql t := by
  refine ⟨by rw [hqnext, hidequeue]; exact h.chain, h.nodup, fun b ↦ ?_⟩
  rw [h.mem]
  constructor
  · rintro ⟨hundone, q, c, hq⟩
    rw [← hdone q c b hq] at hundone
    exact ⟨hundone, q, c, (hpos q c b hundone).mpr hq⟩
  · rintro ⟨hundone, q, c, hq⟩
    rw [hpos q c b hundone] at hq
    exact ⟨by rwa [← hdone q c b hq], q, c, hq⟩

theorem length_le (h : Queued ql s) : ql.length ≤ nbuf := by
  have hle := h.nodup.length_le_card
  rwa [Fintype.card_fin] at hle

/-- The process that waits for the first buffer. -/
theorem waits (h : Queued ql s) (hidequeue : s.idequeue = some b) :
    ∃ q c, (s.proc q).pos = .wait c b := by
  refine ((h.mem b).mp ?_).2
  rw [h.chain.head_eq] at hidequeue
  exact List.mem_of_head? hidequeue

theorem setQnext (h : Queued ql s) (hb : b ∉ ql) :
    Slist.Chain (s.setQnext b none).qnext (s.setQnext b none).idequeue ql := by
  refine h.chain.congr fun c hc ↦ update_of_ne ?_ ..
  rintro rfl
  exact hb hc

/-- `b` is put in at the end. -/
theorem enqueue (h : Queued ql s) {s' : Kernel} (hb : b ∉ ql) (henqueue : enqueue b s = some s') :
    Slist.Chain s'.qnext s'.idequeue (ql ++ [b]) := by
  simp only [Bio.enqueue] at henqueue
  have hchain := h.chain
  split at henqueue
  · next hnone =>
    obtain rfl := Option.some.inj henqueue
    obtain rfl : ql = [] := List.head?_eq_none_iff.mp (hchain.head_eq.symm.trans hnone)
    exact ⟨rfl, update_self ..⟩
  · next a hsome =>
    obtain ⟨z, hz, rfl⟩ := Option.map_eq_some_iff.mp henqueue
    have hcut := h.setQnext hb
    rw [hsome] at hcut
    rw [hcut.last_eq h.length_le] at hz
    have hsnoc := hchain.snoc hb hz h.nodup
    exact hsnoc

/-- No request has been made yet for a buffer for which a process comes to `iderw`. -/
theorem not_mem (h : Queued ql s) (ho : Owned s) {c : Call} (hq : (s.proc q).pos = .iderw c b) :
    b ∉ ql := by
  have hfits := (ho.fine q).fits
  rw [h.mem]
  rw [hq] at hfits
  rintro ⟨-, q', c', hq'⟩
  have hfits' := (ho.fine q').fits
  rw [hq'] at hfits'
  obtain rfl := ho.unique hfits.1 hfits'.1
  cases hq.symm.trans hq'

theorem start (h : Queued ql s) (ho : Owned s) {c : Call} {s' : Kernel}
    (hq : (s.proc q).pos = .iderw c b) (henqueue : Bio.enqueue b s = some s') :
    Queued (ql ++ [b]) (await q c b (if s'.idequeue = some b then idestart b s' else s')) := by
  have hfits := (ho.fine q).fits
  rw [hq] at hfits
  obtain ⟨-, -, hundone⟩ := hfits
  have hb := h.not_mem ho hq
  have hchain := h.enqueue hb henqueue
  generalize hs₁ : (if s'.idequeue = some b then idestart b s' else s') = s₁
  obtain ⟨-, -, hbuf₁, hproc₁, hqnext₁, hidequeue₁⟩ := start_same henqueue hs₁
  have hself : awaiting q c b s₁ = { s.proc q with pos := .wait c b, chan := some b } := by
    rw [awaiting, hbuf₁, hproc₁, if_neg hundone]
  refine ⟨?_, ?_, fun b' ↦ ?_⟩
  · rwa [await_qnext, await_idequeue, hqnext₁, hidequeue₁]
  · exact h.nodup.append (List.nodup_singleton b) (by simpa using hb)
  · rw [await_buf, await_proc, hself, hbuf₁, hproc₁, List.mem_append, List.mem_singleton, h.mem]
    constructor
    · rintro (⟨hundone', q', c', hq'⟩ | rfl)
      · refine ⟨hundone', q', c', ?_⟩
        rw [update_of_ne, hq']
        rintro rfl
        cases hq.symm.trans hq'
      · exact ⟨hundone, q, c, by rw [update_self]⟩
    · rintro ⟨hundone', q', c', hq'⟩
      by_cases hne : q' = q
      · rw [hne, update_self] at hq'
        exact .inr (Pos.wait.inj hq').2.symm
      · rw [update_of_ne hne] at hq'
        exact .inl ⟨hundone', q', c', hq'⟩

theorem interrupt (h : Queued ql s) (ok : Bool) : Queued ql.tail (ideintr ok s) := by
  have hchain := h.chain
  have hnodup := h.nodup
  cases ql with
  | nil => rwa [ideintr_of_none ok hchain]
  | cons b ql =>
    obtain ⟨hidequeue, hchain⟩ := hchain
    rw [List.nodup_cons] at hnodup
    obtain ⟨hbuf, hproc, -, -, hqnext, hidequeue'⟩ := ideintr_same ok hidequeue
    refine ⟨by rwa [hqnext, hidequeue'], hnodup.2, fun b' ↦ ?_⟩
    rw [hbuf, hproc, serve, wakeup_buf, setBuf_buf]
    have hmem := h.mem b'
    rw [List.mem_cons] at hmem
    by_cases hne : b' = b
    · subst hne
      rw [update_self, List.tail_cons]
      exact iff_of_false hnodup.1 fun hundone ↦ hundone.1 ⟨rfl, rfl⟩
    · rw [or_iff_right hne] at hmem
      rw [update_of_ne hne, List.tail_cons, hmem]
      rfl

/-- Only the process `q` changes its place, and it does not wait before or after that. -/
theorem still (h : Queued ql s) (P : Proc)
    (hproc : ∀ q', (t.proc q').core = (update s.proc q P q').core)
    (hqnext : t.qnext = s.qnext) (hidequeue : t.idequeue = s.idequeue)
    (hs : ∀ c b, (s.proc q).pos ≠ .wait c b) (hP : ∀ c b, P.pos ≠ .wait c b)
    (hdone : ∀ q c b, (s.proc q).pos = .wait c b → ((t.buf b).Done ↔ (s.buf b).Done)) :
    Queued ql t := by
  refine h.congr hqnext hidequeue (fun q' c b _ ↦ ?_) hdone
  rw [(Proc.core_eq_iff.mp (hproc q')).1]
  by_cases hne : q' = q
  · rw [hne, update_self]
    exact iff_of_false (hP c b) (hs c b)
  · rw [update_of_ne hne]

/-- Nobody waits for a buffer that the process may use. -/
theorem ne_of_uses (ho : Owned s) (hq : s.Uses q b) {q' : Slot} {c : Call} {b' : Bufno}
    (hq' : (s.proc q').pos = .wait c b') : b' ≠ b := by
  rintro rfl
  have hfits := (ho.fine q').fits
  rw [hq'] at hfits
  obtain rfl := ho.unique hq.2 hfits.1
  cases hq.1.symm.trans hq'

/-- Nobody waits for a buffer that nobody holds. -/
theorem ne_of_free (ho : Owned s) (hb : (s.buf b).busy = false) {q' : Slot} {c : Call} {b' : Bufno}
    (hq' : (s.proc q').pos = .wait c b') : b' ≠ b := by
  rintro rfl
  have hfits := (ho.fine q').fits
  rw [hq'] at hfits
  exact ho.not_mem_of_free hb q' hfits.1

/-- No process changes its place. -/
theorem stay (h : Queued ql s) (hproc : ∀ q, (t.proc q).pos = (s.proc q).pos)
    (hqnext : t.qnext = s.qnext) (hidequeue : t.idequeue = s.idequeue)
    (hdone : ∀ b, (t.buf b).Done ↔ (s.buf b).Done) : Queued ql t :=
  h.congr hqnext hidequeue (fun q c b _ ↦ by rw [hproc]) fun _ _ b _ ↦ hdone b

theorem done_update {x : Buf} (h : x.Done ↔ (s.buf b).Done) (b' : Bufno) :
    (update s.buf b x b').Done ↔ (s.buf b').Done := by
  by_cases hne : b' = b
  · rw [hne, update_self, h]
  · rw [update_of_ne hne]

theorem pos_setProc {s' : Kernel} {P : Proc} (hproc : ∀ q', (s'.proc q').pos = (s.proc q').pos)
    (hP : P.pos = (s.proc q).pos) (q' : Slot) :
    ((s'.setProc q P).proc q').pos = (s.proc q').pos := by
  rw [setProc_proc]
  by_cases hne : q' = q
  · rw [hne, update_self, hP]
  · rw [update_of_ne hne, hproc]

theorem got (h : Queued ql s) (ho : Owned s) {dev sector : BitVec 32} (x : Buf)
    (hq : (s.proc q).pos = .bget dev sector) (hfree : (s.buf b).busy = false) :
    Queued ql (got q dev sector b (s.setBuf b x)) := by
  refine h.still _ (fun _ ↦ rfl) rfl rfl (fun c b' ↦ ?_) (fun c b' ↦ ?_) fun q' c b' hq' ↦ ?_
  · rw [hq]
    exact Pos.noConfusion
  · dsimp only
    split <;> exact Pos.noConfusion
  · rw [Bio.got, setProc_buf, setBuf_buf, update_of_ne (ne_of_free ho hfree hq')]

theorem resume (h : Queued ql s) {c : Call} (hq : (s.proc q).pos = .wait c b) :
    Queued ql (await q c b s) := by
  refine h.congr (await_qnext ..) (await_idequeue ..) (fun q' c' b' hundone ↦ ?_)
    fun _ _ _ _ ↦ by rw [await_buf]
  rw [await_proc]
  by_cases hne : q' = q
  · rw [hne, update_self, awaiting]
    split
    · next hdone =>
      refine iff_of_false Pos.noConfusion fun hq' ↦ hundone ?_
      rw [await_buf, ← (Pos.wait.inj (hq.symm.trans hq')).2]
      exact hdone
    · rw [hq]
  · rw [update_of_ne hne]

theorem trans (h : Queued ql s) (ho : Owned s) (hl : Listed l s) (ht : Trans s a t) :
    Queued (enqueued ql ⟨s, a, t⟩) t := by
  cases ht with
  | bread hq =>
    refine h.still _ (fun _ ↦ rfl) rfl rfl (fun c b ↦ ?_) (fun c b ↦ Pos.noConfusion)
      fun _ _ _ _ ↦ Iff.rfl
    rw [hq]
    exact Pos.noConfusion
  | hit hq hchan hfind hfree => exact h.got ho _ hq hfree
  | sleep => exact h.stay (pos_setProc (fun _ ↦ rfl) rfl) rfl rfl fun _ ↦ Iff.rfl
  | miss hq hchan hfind hfree => exact h.got ho _ hq (hl.free hfree)
  | iderw hq hbusy hdone henqueue =>
    simp only [enqueued, hq]
    exact h.start ho hq henqueue
  | resume hq => exact h.resume hq
  | ideintr ok => exact h.interrupt ok
  | store => exact h.stay (fun _ ↦ rfl) rfl rfl (done_update Iff.rfl)
  | @bwrite q b hq hbusy =>
    refine h.still _ (fun _ ↦ rfl) rfl rfl (fun c b' ↦ ?_) (fun c b' ↦ Pos.noConfusion)
      fun q' c b' hq' ↦ ?_
    · rw [hq.1]
      exact Pos.noConfusion
    · rw [setProc_buf, setBuf_buf, update_of_ne (ne_of_uses ho hq hq')]
  | brelse => exact h.stay (pos_setProc (fun _ ↦ rfl) rfl) rfl rfl (done_update Iff.rfl)
  | kill => exact h.stay (pos_setProc (fun _ ↦ rfl) rfl) rfl rfl fun _ ↦ Iff.rfl

end Queued

/-! ## Sleepers -/

/-- What a process that sleeps on the buffer `b` waits for has not happened. -/
def Pos.Blocked (x : Buf) (b : Bufno) : Pos → Prop
  | .bget _ _ => x.busy = true
  | .wait _ b' => b' = b ∧ ¬x.Done
  | _ => False

/-- Nobody sleeps who could go on. -/
def Alert (s : Kernel) : Prop :=
  ∀ q b, (s.proc q).chan = some b → (s.proc q).pos.Blocked (s.buf b) b

theorem chan_wakeup {b' : Bufno} (h : ((s.wakeup b).proc q).chan = some b') :
    b' ≠ b ∧ (s.proc q).chan = some b' := by
  simp only [Kernel.wakeup] at h
  split at h
  · cases h
  · next hne =>
    refine ⟨?_, h⟩
    rintro rfl
    exact hne h

theorem blocked_update {x : Buf} {b' : Bufno} {pos : Pos} (hbusy : x.busy = (s.buf b).busy)
    (hdone : x.Done ↔ (s.buf b).Done) :
    pos.Blocked (update s.buf b x b') b' ↔ pos.Blocked (s.buf b') b' := by
  by_cases hne : b' = b
  · subst hne
    rw [update_self]
    cases pos with
    | bget => rw [Pos.Blocked, Pos.Blocked, hbusy]
    | wait => rw [Pos.Blocked, Pos.Blocked, hdone]
    | user => rfl
    | iderw => rfl
  · rw [update_of_ne hne]

/-- A busy buffer for which nobody waits in `iderw` changes. -/
theorem blocked_busy {x : Buf} {b' : Bufno} {pos : Pos} (hbusy : x.busy = true)
    (hwait : ∀ c b'', pos = .wait c b'' → b'' ≠ b) (h : pos.Blocked (s.buf b') b') :
    pos.Blocked (update s.buf b x b') b' := by
  by_cases hne : b' = b
  · subst hne
    rw [update_self]
    cases pos with
    | bget => exact hbusy
    | wait c b'' => exact absurd h.1 (hwait c b'' rfl)
    | user => exact h
    | iderw => exact h
  · rwa [update_of_ne hne]

namespace Alert

theorem awake (h : Alert s) (hq : (s.proc q).pos = .user ∨ ∃ c b, (s.proc q).pos = .iderw c b) :
    (s.proc q).chan = none := by
  cases hchan : (s.proc q).chan with
  | none => rfl
  | some b =>
    have hblocked := h q b hchan
    rcases hq with hq | ⟨c, b', hq⟩
    · rw [hq] at hblocked
      exact hblocked.elim
    · rw [hq] at hblocked
      exact hblocked.elim

/-- Only `q` changes its place, and what the others wait for stays as it is. -/
theorem move (h : Alert s) {s' : Kernel} (P : Proc) (ht : t = s'.setProc q P)
    (hproc : ∀ q' b, (s'.proc q').chan = some b → (s.proc q').chan = some b ∧
      (s'.proc q').pos = (s.proc q').pos)
    (hblocked : ∀ q' b, q' ≠ q → (s'.proc q').chan = some b →
      (s.proc q').pos.Blocked (s.buf b) b → (s.proc q').pos.Blocked (s'.buf b) b)
    (hself : ∀ b, P.chan = some b → P.pos.Blocked (s'.buf b) b) : Alert t := by
  intro q' b hchan
  rw [ht, setProc_proc] at hchan ⊢
  rw [setProc_buf]
  by_cases hne : q' = q
  · rw [hne, update_self] at hchan ⊢
    exact hself b hchan
  · rw [update_of_ne hne] at hchan ⊢
    obtain ⟨hchan', hpos⟩ := hproc q' b hchan
    rw [hpos]
    exact hblocked q' b hne hchan (h q' b hchan')

/-- Only `q` changes, and it is awake. -/
theorem calm (h : Alert s) {s' : Kernel} (P : Proc) (ht : t = s'.setProc q P)
    (hproc : s'.proc = s.proc) (hbuf : s'.buf = s.buf) (hself : P.chan = none) : Alert t := by
  refine h.move P ht (fun q' b hchan ↦ ?_) (fun q' b _ _ hblocked ↦ ?_) fun b hchan ↦ ?_
  · rw [hproc] at hchan ⊢
    exact ⟨hchan, rfl⟩
  · rwa [hbuf]
  · rw [hself] at hchan
    cases hchan

/-- The flags of one buffer change, and nothing that somebody else waits for. -/
theorem got (h : Alert s) (ho : Owned s) {dev sector : BitVec 32} {x : Buf}
    (hbusy : x.busy = true) (hchan : (s.proc q).chan = none) (hfree : (s.buf b).busy = false) :
    Alert (got q dev sector b (s.setBuf b x)) := by
  refine h.move _ rfl (fun q' b' hchan ↦ ⟨hchan, rfl⟩) (fun q' b' hne hchan' hblocked ↦ ?_)
    fun b' hchan' ↦ ?_
  · exact blocked_busy hbusy (fun c b'' hpos ↦ Queued.ne_of_free ho hfree hpos) hblocked
  · cases hchan.symm.trans hchan'

theorem await (h : Alert s) {s' : Kernel} {c : Call} (hbuf : s'.buf = s.buf)
    (hproc : s'.proc = s.proc) (hchan : (s.proc q).chan = none) : Alert (await q c b s') := by
  refine h.move (awaiting q c b s') (await_eq ..) (fun q' b' hchan' ↦ ?_)
    (fun q' b' _ _ hblocked ↦ by rwa [hbuf]) fun b' hchan' ↦ ?_
  · rw [hproc] at hchan' ⊢
    exact ⟨hchan', rfl⟩
  · rw [awaiting, hproc] at *
    split at hchan'
    · cases hchan.symm.trans hchan'
    · next hundone =>
      obtain rfl := Option.some.inj hchan'
      rw [if_neg hundone]
      exact ⟨rfl, hundone⟩

theorem interrupt (h : Alert s) (ok : Bool) : Alert (ideintr ok s) := by
  cases hidequeue : s.idequeue with
  | none => rwa [ideintr_of_none ok hidequeue]
  | some b =>
    obtain ⟨hbuf, hproc, -⟩ := ideintr_same ok hidequeue
    intro q b' hchan
    rw [hproc] at hchan ⊢
    rw [hbuf, serve, wakeup_buf, setBuf_buf]
    obtain ⟨hne, hchan⟩ := chan_wakeup hchan
    rw [update_of_ne hne]
    exact h q b' hchan

theorem trans (h : Alert s) (ho : Owned s) (hl : Listed l s) (ht : Trans s a t) : Alert t := by
  cases ht with
  | bread hq => exact h.calm _ rfl rfl rfl (h.awake (.inl hq))
  | hit hq hchan hfind hfree => exact h.got ho rfl hchan hfree
  | @sleep q dev sector b hq hchan hbusy =>
    refine h.move _ rfl (fun q' b' hchan' ↦ ⟨hchan', rfl⟩) (fun _ _ _ _ hblocked ↦ hblocked)
      fun b' hchan' ↦ ?_
    obtain rfl := Option.some.inj hchan'
    dsimp only
    rw [hq]
    exact hbusy
  | miss hq hchan hfind hfree => exact h.got ho rfl hchan (hl.free hfree)
  | iderw hq hbusy hdone henqueue =>
    obtain ⟨-, -, hbuf, hproc, -⟩ := start_same henqueue rfl
    exact h.await hbuf hproc (h.awake (.inr ⟨_, _, hq⟩))
  | resume hq hchan => exact h.await rfl rfl hchan
  | ideintr ok => exact h.interrupt ok
  | @store q b data hq =>
    intro q' b' hchan
    exact (blocked_update (b := b) (x := { s.buf b with data := data }) rfl Iff.rfl).mpr
      (h q' b' hchan)
  | @bwrite q b hq hbusy =>
    refine h.move _ rfl (fun q' b' hchan' ↦ ⟨hchan', rfl⟩) (fun q' b' _ _ hblocked ↦ ?_)
      fun b' hchan' ↦ ?_
    · exact blocked_busy hbusy (fun c b'' hpos ↦ Queued.ne_of_uses ho hq hpos) hblocked
    · cases (h.awake (.inl hq.1)).symm.trans hchan'
  | @brelse q b hq hbusy =>
    refine h.move _ rfl (fun q' b' hchan' ↦ ⟨(chan_wakeup hchan').2, rfl⟩)
      (fun q' b' _ hchan' hblocked ↦ ?_) fun b' hchan' ↦ ?_
    · rw [wakeup_buf, setBuf_buf, update_of_ne (chan_wakeup hchan').1]
      exact hblocked
    · have hnone := h.awake (.inl hq.1)
      have hchan'' := (chan_wakeup (s := ((s.unlink b).pushFront b).setBuf b _) hchan').2
      cases hnone.symm.trans hchan''
  | kill => exact h.calm _ rfl rfl rfl rfl

end Alert

end CS537.Bio
