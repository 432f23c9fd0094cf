import CS537.Bio.Lru
import CS537.Lib.Tally

/-!
# Who holds a buffer

A buffer is busy as long as a process holds it, and no two processes ever hold the same one. The
buffers that a process holds are filled and written back, except for the one for which it is in
`iderw`, and that is the one it has asked for.
-/

namespace CS537.Bio

open Function Transition Tally

variable {s t : Kernel} {q : Slot} {b : Bufno} {a : Act} {l : List Bufno}

/-- The buffer is the one that the call of `bread` asks for. -/
def Call.For : Call → Buf → Prop
  | .bread dev sector, x => x.dev = dev ∧ x.sector = sector
  | .bwrite, _ => True

/-- The process is in `iderw` for the buffer. -/
def Pos.At (b : Bufno) : Pos → Prop
  | .iderw _ b' => b' = b
  | .wait _ b' => b' = b
  | _ => False

def Pos.Fits (buf : Bufno → Buf) (held : List Bufno) : Pos → Prop
  | .iderw c b => b ∈ held ∧ c.For (buf b) ∧ ¬(buf b).Done
  | .wait c b => b ∈ held ∧ c.For (buf b)
  | _ => True

/-- What the place of a process says about the buffers that it holds. -/
structure Proc.Fine (buf : Bufno → Buf) (P : Proc) : Prop where
  fits : P.pos.Fits buf P.held
  done : ∀ b ∈ P.held, (buf b).Done ∨ P.pos.At b

structure Owned (s : Kernel) : Prop where
  holders : ∀ b, tally (fun P ↦ P.held.count b) s.proc = if (s.buf b).busy then 1 else 0
  fine : ∀ q, (s.proc q).Fine s.buf
  idle : ∀ b, (s.buf b).busy = false → (s.buf b).dirty = false

def Proc.core (P : Proc) : Pos × List Bufno := (P.pos, P.held)

theorem Proc.core_eq_iff {P P' : Proc} : P.core = P'.core ↔ P.pos = P'.pos ∧ P.held = P'.held :=
  Prod.mk_inj

theorem Proc.Fine.congr {buf buf' : Bufno → Buf} {P P' : Proc} (h : P.Fine buf)
    (hcore : P'.core = P.core) (hbuf : ∀ b ∈ P.held, buf' b = buf b) : P'.Fine buf' := by
  obtain ⟨hpos, hheld⟩ := Proc.core_eq_iff.mp hcore
  obtain ⟨hfits, hdone⟩ := h
  refine ⟨?_, fun b hb ↦ ?_⟩
  · rw [hpos, hheld]
    cases hP : P.pos with
    | iderw c b =>
      rw [hP] at hfits
      rw [Pos.Fits, hbuf b hfits.1]
      exact hfits
    | wait c b =>
      rw [hP] at hfits
      rw [Pos.Fits, hbuf b hfits.1]
      exact hfits
    | _ => trivial
  · rw [hheld] at hb
    rw [hbuf b hb, hpos]
    exact hdone b hb

namespace Owned

theorem busy (h : Owned s) (hb : b ∈ (s.proc q).held) : (s.buf b).busy = true := by
  by_contra hfree
  have hle := le_tally (fun P ↦ P.held.count b) s.proc q
  have hpos : 0 < (s.proc q).held.count b := List.count_pos_iff.mpr hb
  rw [h.holders, if_neg hfree] at hle
  omega

theorem not_mem_of_free (h : Owned s) (hb : (s.buf b).busy = false) (q : Slot) :
    b ∉ (s.proc q).held := by
  intro hmem
  rw [h.busy hmem] at hb
  cases hb

theorem count_le (h : Owned s) (b : Bufno) : tally (fun P ↦ P.held.count b) s.proc ≤ 1 := by
  rw [h.holders]
  split <;> omega

theorem holder (h : Owned s) (hb : (s.buf b).busy = true) : ∃ q, b ∈ (s.proc q).held := by
  by_contra hnone
  rw [not_exists] at hnone
  have hzero : tally (fun P ↦ P.held.count b) s.proc = 0 :=
    tally_eq_zero fun q ↦ List.count_eq_zero_of_not_mem (hnone q)
  rw [h.holders, if_pos hb] at hzero
  cases hzero

/-- No two processes hold the same buffer. -/
theorem unique (h : Owned s) {q' : Slot} (hb : b ∈ (s.proc q).held) (hb' : b ∈ (s.proc q').held) :
    q = q' := by
  by_contra hne
  have hle := add_le_tally (fun P ↦ P.held.count b) s.proc hne
  have htotal := h.count_le b
  have hpos : 0 < (s.proc q).held.count b := List.count_pos_iff.mpr hb
  have hpos' : 0 < (s.proc q').held.count b := List.count_pos_iff.mpr hb'
  omega

theorem nodup (h : Owned s) (q : Slot) : (s.proc q).held.Nodup := by
  rw [List.nodup_iff_count_le_one]
  intro b
  have hle := le_tally (fun P ↦ P.held.count b) s.proc q
  have htotal := h.count_le b
  omega

/-- A move of `q` that changes the buffer `b` at most, which nobody else holds. -/
theorem move (h : Owned s) (b : Bufno) (P : Proc)
    (hproc : ∀ q', (t.proc q').core = (update s.proc q P q').core)
    (hbuf : ∀ b', b' ≠ b → t.buf b' = s.buf b') (hb : ∀ q', q' ≠ q → b ∉ (s.proc q').held)
    (hfine : P.Fine t.buf)
    (hcount : ∀ b', P.held.count b' + (if (s.buf b').busy then 1 else 0) =
      (s.proc q).held.count b' + if (t.buf b').busy then 1 else 0)
    (hidle : (t.buf b).busy = false → (t.buf b).dirty = false) : Owned t := by
  refine ⟨fun b' ↦ ?_, fun q' ↦ ?_, fun b' hb' ↦ ?_⟩
  · have hupdate := tally_update (fun P ↦ P.held.count b') s.proc q P
    have hcongr : tally (fun P ↦ P.held.count b') t.proc =
        tally (fun P ↦ P.held.count b') (update s.proc q P) :=
      tally_congr fun q' ↦ by rw [(Proc.core_eq_iff.mp (hproc q')).2]
    have hold := h.holders b'
    have hnew := hcount b'
    omega
  · by_cases hne : q' = q
    · subst hne
      refine hfine.congr ?_ fun _ _ ↦ rfl
      rw [hproc, update_self]
    · refine (h.fine q').congr ?_ fun b' hb' ↦ hbuf b' ?_
      · rw [hproc, update_of_ne hne]
      · rintro rfl
        exact hb q' hne hb'
  · by_cases hne : b' = b
    · subst hne
      exact hidle hb'
    · rw [hbuf b' hne] at hb' ⊢
      exact h.idle b' hb'

/-- A move of `q` that changes neither the flags nor the holders. -/
theorem stay (h : Owned s) (P : Proc)
    (hproc : ∀ q', (t.proc q').core = (update s.proc q P q').core)
    (hbuf : t.buf = s.buf) (hheld : P.held = (s.proc q).held) (hfine : P.Fine s.buf) : Owned t := by
  refine ⟨fun b ↦ ?_, fun q' ↦ ?_, fun b hb ↦ ?_⟩
  · rw [hbuf, ← h.holders]
    refine tally_congr fun q' ↦ ?_
    rw [(Proc.core_eq_iff.mp (hproc q')).2]
    by_cases hne : q' = q
    · subst hne
      rw [update_self, hheld]
    · rw [update_of_ne hne]
  · rw [hbuf]
    by_cases hne : q' = q
    · subst hne
      exact hfine.congr (by rw [hproc, update_self]) fun _ _ ↦ rfl
    · exact (h.fine q').congr (by rw [hproc, update_of_ne hne]) fun _ _ ↦ rfl
  · rw [hbuf] at hb ⊢
    exact h.idle b hb

theorem got (h : Owned s) {dev sector : BitVec 32} {x : Buf} (hfree : (s.buf b).busy = false)
    (hbusy : x.busy = true) (hdirty : x.dirty = false) (hfor : x.dev = dev ∧ x.sector = sector)
    (hq : (s.proc q).pos = .bget dev sector) : Owned (got q dev sector b (s.setBuf b x)) := by
  have hold := (h.fine q).done
  rw [hq] at hold
  refine h.move (q := q) b _ (fun q' ↦ rfl) (fun b' hne ↦ update_of_ne hne ..)
    (fun q' _ ↦ h.not_mem_of_free hfree q') ⟨?_, fun b' hb' ↦ ?_⟩ (fun b' ↦ ?_) fun hnot ↦ ?_
  · change Pos.Fits (s.setBuf b x).buf _ _
    rw [setBuf_buf, update_self]
    split
    · trivial
    · next hvalid =>
      rw [Pos.Fits, update_self]
      exact ⟨List.mem_cons_self .., hfor, fun hdone ↦ hvalid hdone.1⟩
  · change ((s.setBuf b x).buf b').Done ∨ Pos.At b' _
    rw [setBuf_buf, update_self]
    by_cases hne : b' = b
    · subst hne
      rw [update_self]
      cases hvalid : x.valid with
      | true => exact .inl ⟨hvalid, hdirty⟩
      | false => exact .inr rfl
    · rw [update_of_ne hne]
      exact .inl ((hold b' (List.mem_of_ne_of_mem hne hb')).resolve_right id)
  · change (b :: (s.proc q).held).count b' + _ = _ + if ((s.setBuf b x).buf b').busy then 1 else 0
    rw [setBuf_buf, List.count_cons]
    by_cases hne : b' = b
    · subst hne
      rw [update_self, hfree, hbusy]
      simp
    · rw [update_of_ne hne, if_neg (by simpa using Ne.symm hne)]
      rfl
  · change ((s.setBuf b x).buf b).busy = false at hnot
    rw [setBuf_buf, update_self, hbusy] at hnot
    cases hnot

/-- A round of the loop of `iderw`. -/
theorem await (h : Owned s) {s' : Kernel} {c : Call} (hbuf : s'.buf = s.buf)
    (hproc : s'.proc = s.proc) (hb : b ∈ (s.proc q).held) (hfor : c.For (s.buf b))
    (hat : ∀ b', (s.proc q).pos.At b' → b' = b) : Owned (await q c b s') := by
  refine h.stay (q := q) (awaiting q c b s') (fun q' ↦ ?_) ?_ ?_ ⟨?_, fun b' hb' ↦ ?_⟩
  · rw [await_proc, hproc]
  · rw [await_buf, hbuf]
  · rw [awaiting, hproc]
    split <;> rfl
  · rw [awaiting, hproc]
    split
    · trivial
    · exact ⟨hb, hfor⟩
  · have hold := (h.fine q).done b'
    rw [awaiting, hproc, hbuf] at *
    split
    · next hdone =>
      rw [if_pos hdone] at hb'
      rcases hold hb' with hold | hold
      · exact .inl hold
      · rw [hat b' hold]
        exact .inl hdone
    · next hdone =>
      rw [if_neg hdone] at hb'
      rcases hold hb' with hold | hold
      · exact .inl hold
      · exact .inr (hat b' hold).symm

/-- The interrupt handler serves the buffer `b`, for which the process `q` waits. -/
theorem interrupt (h : Owned s) (ok : Bool) {c : Call} (hidequeue : s.idequeue = some b)
    (hq : (s.proc q).pos = .wait c b) : Owned (ideintr ok s) := by
  obtain ⟨hfits, hdone⟩ := h.fine q
  rw [hq] at hfits hdone
  obtain ⟨hbuf, hproc, -⟩ := ideintr_same ok hidequeue
  refine h.move (q := q) b (s.proc q) (fun q' ↦ ?_) (fun b' hne ↦ ?_)
    (fun q' hne hb ↦ hne (h.unique hb hfits.1)) ⟨?_, fun b' hb' ↦ ?_⟩ (fun b' ↦ ?_) fun _ ↦ ?_
  · rw [hproc, update_eq_self]
    rfl
  · rw [hbuf]
    exact update_of_ne hne ..
  · rw [hq, hbuf]
    refine ⟨hfits.1, ?_⟩
    rw [serve, wakeup_buf, setBuf_buf, update_self]
    cases c <;> exact hfits.2
  · rw [hbuf, hq, serve, wakeup_buf, setBuf_buf]
    by_cases hne : b' = b
    · exact .inr hne.symm
    · rw [update_of_ne hne]
      exact hdone b' hb'
  · rw [hbuf, serve, wakeup_buf, setBuf_buf]
    by_cases hne : b' = b
    · subst hne
      rw [update_self]
      rfl
    · rw [update_of_ne hne]
  · rw [hbuf, serve, wakeup_buf, setBuf_buf, update_self]
    rfl

/-- Nothing but the holder's buffer changes. -/
theorem uses (h : Owned s) (hq : s.Uses q b) {x : Buf} (P : Proc) {s' : Kernel}
    (hbuf : s'.buf = update s.buf b x) (hproc : ∀ q', (s'.proc q').core = (s.proc q').core)
    (hfits : P.pos.Fits (update s.buf b x) P.held) (hheld : P.held.Sublist (s.proc q).held)
    (hdone : b ∈ P.held → x.Done ∨ P.pos.At b)
    (hcount : ∀ b', P.held.count b' + (if (s.buf b').busy then 1 else 0) =
      (s.proc q).held.count b' + if (update s.buf b x b').busy then 1 else 0)
    (hidle : x.busy = false → x.dirty = false) : Owned (s'.setProc q P) := by
  have hold := (h.fine q).done
  rw [hq.1] at hold
  refine h.move (q := q) b P (fun q' ↦ ?_) (fun b' hne ↦ ?_)
    (fun q' hne hb ↦ hne (h.unique hb hq.2)) ⟨?_, fun b' hb' ↦ ?_⟩ ?_ ?_
  · rw [setProc_proc]
    by_cases hne : q' = q
    · rw [hne, update_self, update_self]
    · rw [update_of_ne hne, update_of_ne hne, hproc]
  · rw [setProc_buf, hbuf, update_of_ne hne]
  · rwa [setProc_buf, hbuf]
  · rw [setProc_buf, hbuf]
    by_cases hne : b' = b
    · subst hne
      rw [update_self]
      exact hdone hb'
    · rw [update_of_ne hne]
      exact .inl ((hold b' (hheld.subset hb')).resolve_right id)
  · rwa [setProc_buf, hbuf]
  · rwa [setProc_buf, hbuf, update_self]

theorem trans (h : Owned s) (hl : Listed l s)
    (hqueue : ∀ b, s.idequeue = some b → ∃ q c, (s.proc q).pos = .wait c b) (ht : Trans s a t) :
    Owned t := by
  cases ht with
  | @bread q dev sector hq =>
    refine h.stay (q := q) _ (fun q' ↦ rfl) rfl rfl ⟨trivial, fun b hb ↦ ?_⟩
    exact ((h.fine q).done b hb).imp_right fun hat ↦ by rw [hq] at hat; exact hat
  | hit hq hchan hfind hfree => exact h.got hfree rfl (h.idle _ hfree) (hl.block hfind) hq
  | sleep => exact h.stay _ (fun q' ↦ rfl) rfl rfl ((h.fine _).congr rfl fun _ _ ↦ rfl)
  | miss hq hchan hfind hfree => exact h.got (hl.free hfree) rfl rfl ⟨rfl, rfl⟩ hq
  | @iderw q c b s' hq hbusy hdone henqueue =>
    obtain ⟨-, -, hbuf, hproc, -⟩ := start_same henqueue rfl
    have hfits := (h.fine q).fits
    rw [hq] at hfits
    refine h.await hbuf hproc hfits.1 hfits.2.1 fun b' hat ↦ ?_
    rw [hq] at hat
    exact Eq.symm hat
  | @resume q c b hq hchan =>
    have hfits := (h.fine q).fits
    rw [hq] at hfits
    refine h.await rfl rfl hfits.1 hfits.2 fun b' hat ↦ ?_
    rw [hq] at hat
    exact Eq.symm hat
  | ideintr ok =>
    cases hidequeue : s.idequeue with
    | none => rwa [ideintr_of_none ok hidequeue]
    | some b =>
      obtain ⟨q, c, hq⟩ := hqueue b hidequeue
      exact h.interrupt ok hidequeue hq
  | @store q b data hq =>
    have hbusy := h.busy hq.2
    have hdone := ((h.fine q).done b hq.2).resolve_right (by rw [hq.1]; exact id)
    have hbuf : (s.setBuf b { s.buf b with data := data }).buf =
        update s.buf b { s.buf b with data := data } := rfl
    have hstore := h.uses hq (s.proc q) hbuf (fun _ ↦ rfl) (by rw [hq.1]; trivial)
      (List.Sublist.refl _) (fun _ ↦ .inl hdone) (fun b' ↦ ?_) fun hfree ↦ ?_
    · rwa [Kernel.setProc, setBuf_proc, update_eq_self] at hstore
    · by_cases hne : b' = b
      · rw [hne, update_self]
      · rw [update_of_ne hne]
    · exact absurd (hbusy.symm.trans hfree) Bool.noConfusion
  | @bwrite q b hq hbusy =>
    refine h.uses hq (x := { s.buf b with dirty := true }) _ rfl (fun _ ↦ rfl) ?_
      (List.Sublist.refl _) (fun _ ↦ .inr rfl) (fun b' ↦ ?_) fun hfree ↦ ?_
    · refine ⟨hq.2, trivial, ?_⟩
      rw [update_self]
      exact fun hdone ↦ Bool.noConfusion hdone.2
    · by_cases hne : b' = b
      · rw [hne, update_self]
      · rw [update_of_ne hne]
    · exact absurd (hbusy.symm.trans hfree) Bool.noConfusion
  | @brelse q b hq hbusy =>
    have hdone := ((h.fine q).done b hq.2).resolve_right (by rw [hq.1]; exact id)
    refine h.uses hq (x := { s.buf b with busy := false }) _ rfl (fun _ ↦ rfl) ?_
      List.erase_sublist (fun hb ↦ absurd hb (h.nodup q).not_mem_erase) (fun b' ↦ ?_)
      fun _ ↦ hdone.2
    · change Pos.Fits _ _ (s.proc q).pos
      rw [hq.1]
      trivial
    · change ((s.proc q).held.erase b).count b' + _ = _
      by_cases hne : b' = b
      · have hpos : 0 < (s.proc q).held.count b := List.count_pos_iff.mpr hq.2
        rw [hne, List.count_erase_self, update_self, hbusy]
        simp only [if_true, Bool.false_eq_true, if_false]
        omega
      · rw [List.count_erase_of_ne hne, update_of_ne hne]
  | kill => exact h.stay _ (fun q' ↦ rfl) rfl rfl ((h.fine _).congr rfl fun _ _ ↦ rfl)

end Owned

end CS537.Bio
