import CS537.Lib.Qsort
import CS537.Varsort.Program
import Mathlib.Data.Nat.Basic

/-!
# `varsort` on malformed files

The file is any sequence of bytes. How much memory the program asks for hangs on the record count
and on the size of the file; how much it stores there hangs on the length of every record and on
where the file ends. `found` measures the latter in terms of the file alone, and `Fits` compares
the two: this is exactly when the program stays inside of its memory.
-/

namespace CS537.Varsort

/-- The program ends by itself: it has written the whole output, or it has exited with status 1. -/
def Safe (out : Except Stop (List Byte)) : Prop :=
  (∃ bytes, out = .ok bytes) ∨ out = .error .exit1

theorem safe_iff {out : Except Stop (List Byte)} : Safe out ↔ out ≠ .error .overrun := by
  rcases out with (_ | _) | bytes
  · exact ⟨fun _ ↦ nofun, fun _ ↦ Or.inr rfl⟩
  · refine ⟨fun h ↦ ?_, fun h ↦ absurd rfl h⟩
    rcases h with ⟨_, h⟩ | h <;> cases h
  · exact ⟨fun _ ↦ nofun, fun _ ↦ Or.inl ⟨bytes, rfl⟩⟩

/-! ## What a file holds -/

/-- The size in bytes of the data of the record that the file begins with, as an `int`. -/
def headSize (file : List Byte) : BitVec 32 :=
  word ((file.take recNodataSize).drop intSize) * 4#32

/-- For each record that the file begins, of `left` that it announces, the number of data bytes that
follow its head and come into memory. A record whose data the program cannot ask for is the last
one, as is one that the file breaks off in, or whose data one `read` does not transfer; `mapped` says
that there is memory for data. -/
def found (mapped : Bool) : ℕ → List Byte → List ℕ
  | 0, _ => []
  | left + 1, file =>
    if file = [] then []
    else if file.length < recNodataSize then [0]
    else
      let size := headSize file
      let rest := file.drop recNodataSize
      if size = 0 then 0 :: found mapped left rest
      else if size.toInt < 0 ∨ mapped = false then [0]
      else if min rest.length maxTransfer < size.toNat then [min rest.length maxTransfer]
      else size.toNat :: found mapped left (rest.drop size.toNat)

/-- The record count. -/
def announced (file : List Byte) : BitVec 32 := word (file.take intSize)

/-- The sizes that `malloc` is called with, for `fullRecords` and for `data`. -/
def fullRecordsSize (file : List Byte) : ℕ := sizeT (announced file * 16#32)

def dataSize (file : List Byte) : ℕ :=
  sizeT ((BitVec.ofNat 32 file.length - 4#32 - 2#32 * announced file * 4#32) * 4#32)

/-- What the file holds has room in the memory that is allocated for it. Without memory for
`fullRecords` the program exits at the first record. -/
def Fits (malloc : ℕ → Option (ℕ → Byte)) (file : List Byte) : Prop :=
  malloc (fullRecordsSize file) = none ∨
    let records := found (malloc (dataSize file)).isSome (announced file).toNat (file.drop intSize)
    recDataptrSize * records.length ≤ fullRecordsSize file ∧ records.sum ≤ dataSize file

/-! ## The first loop -/

/-- The memory for data, in bytes; without any the room is nothing. -/
def room (data : Option Block) : ℕ := (data.map Block.size).getD 0

/-- The data of an element of `fullRecords` lie in memory. -/
def Inside (data : Option Block) (r : RecDataptr) : Prop :=
  r.dataInts * 4#32 = 0 ∨ 0 ≤ (r.dataInts * 4#32).toInt ∧ data.isSome ∧
    (r.dataInts * 4#32).toNat ≤ maxTransfer ∧
      intSize * r.dataPtr.toNat + (r.dataInts * 4#32).toNat ≤ room data

/-- Everything that has been stored so far lies in memory. -/
structure Stored (size : ℕ) (st : Reading) : Prop where
  heads : recDataptrSize * st.fullRecords.length ≤ size
  data : intSize * st.pos.toNat ≤ room st.data
  inside : ∀ r ∈ st.fullRecords, Inside st.data r

variable {size : ℕ} {st : Reading}

theorem room_store (b : Block) (off : ℕ) (l : List Byte) :
    room (some (b.store off l)) = room (some b) := rfl

theorem Stored.start (size : ℕ) (file : List Byte) (data : Option Block) :
    Stored size ⟨file, [], data, 0⟩ :=
  ⟨Nat.zero_le _, Nat.zero_le _, nofun⟩

/-- `fullRecords` is full, and there is another byte to store. -/
theorem readRecord_full (hdvd : recDataptrSize ∣ size) (hfile : st.file ≠ [])
    (hfull : size < recDataptrSize * (st.fullRecords.length + 1)) :
    readRecord (some size) st = .error .overrun := by
  have hpos : 0 < (st.file.take recNodataSize).length := by
    rw [List.length_take, recNodataSize]
    have := List.length_pos_iff.mpr hfile
    omega
  have hle : size ≤ recDataptrSize * st.fullRecords.length := by
    obtain ⟨k, rfl⟩ := hdvd
    exact Nat.mul_le_mul_left _ (Nat.lt_succ_iff.mp (Nat.lt_of_mul_lt_mul_left hfull))
  rw [readRecord]
  exact if_pos (by omega)

/-- The file breaks off in a head. -/
theorem readRecord_short (h : Stored size st) (hshort : st.file.length < recNodataSize)
    (hroom : st.file ≠ [] → recDataptrSize * (st.fullRecords.length + 1) ≤ size) :
    readRecord (some size) st = .error .exit1 := by
  have hheads := h.heads
  have hin : ¬size < recDataptrSize * st.fullRecords.length
      + (st.file.take recNodataSize).length := by
    rw [List.length_take, recNodataSize]
    by_cases hfile : st.file = []
    · rw [hfile, List.length_nil]
      omega
    · have := hroom hfile
      rw [recDataptrSize] at *
      omega
  have hlt : (st.file.take recNodataSize).length < recNodataSize := by
    rw [List.length_take]
    omega
  rw [readRecord]
  simp only
  rw [if_neg hin, if_pos hlt]
  rfl

/-- The element of `fullRecords` that the head at the beginning of the file makes. -/
def element (st : Reading) : RecDataptr where
  key := word ((st.file.take recNodataSize).take intSize)
  dataInts := word ((st.file.take recNodataSize).drop intSize)
  dataPtr := st.pos

/-- A head that has been read decides about what follows it. -/
theorem readRecord_head (hfile : recNodataSize ≤ st.file.length)
    (hroom : recDataptrSize * (st.fullRecords.length + 1) ≤ size) :
    readRecord (some size) st = (do
      let (data, file) ← readInto st.data (intSize * st.pos.toNat) (headSize st.file)
        (st.file.drop recNodataSize)
      pure {
        file := file
        fullRecords := st.fullRecords ++ [element st]
        data := data
        pos := st.pos + (headSize st.file).sdiv 4#32 }) := by
  have hlen : (st.file.take recNodataSize).length = recNodataSize := List.length_take_of_le hfile
  rw [readRecord]
  simp only
  rw [if_neg (by rw [hlen, recDataptrSize, recNodataSize] at *; omega), hlen, if_neg (lt_irrefl _),
    if_neg (not_lt.mpr hroom)]
  rfl

theorem toInt_neg_iff {n : BitVec 32} : n.toInt < 0 ↔ 2 ^ 31 ≤ n.toNat := by
  have := n.isLt
  rw [BitVec.toInt_eq_toNat_cond]
  split <;> omega

theorem four_dvd_headSize (file : List Byte) : 4 ∣ (headSize file).toNat := by
  rw [headSize, BitVec.toNat_mul]
  change 4 ∣ _ * 4 % 2 ^ 32
  omega

/-- The index behind the data of a record. -/
theorem toNat_add_sdiv {pos n : BitVec 32} (hdvd : 4 ∣ n.toNat) (hn : ¬n.toInt < 0)
    (hsum : 4 * pos.toNat + n.toNat < 2 ^ 34) :
    4 * (pos + n.sdiv 4#32).toNat = 4 * pos.toNat + n.toNat := by
  rw [toInt_neg_iff] at hn
  have hmsb : n.msb = false := by
    rw [BitVec.msb_eq_decide, decide_eq_false_iff_not]
    exact hn
  have hdiv : (n.sdiv 4#32).toNat = n.toNat / 4 := by
    rw [BitVec.sdiv, hmsb]
    exact BitVec.toNat_udiv
  rw [BitVec.toNat_add, hdiv, Nat.mod_eq_of_lt (by omega)]
  omega

theorem Inside.congr {data data' : Option Block} {r : RecDataptr} (h : Inside data r)
    (hsome : data'.isSome = data.isSome) (hroom : room data' = room data) : Inside data' r := by
  rwa [Inside, hsome, hroom]

/-- One more record lies in memory. -/
theorem Stored.next (h : Stored size st) {data : Option Block} {file : List Byte} {r : RecDataptr}
    {n : BitVec 32} (hsome : data.isSome = st.data.isSome) (hroom : room data = room st.data)
    (hdvd : 4 ∣ n.toNat) (hn : ¬n.toInt < 0) (hlt : room st.data < 2 ^ 34)
    (hheads : recDataptrSize * (st.fullRecords.length + 1) ≤ size)
    (hdata : intSize * st.pos.toNat + n.toNat ≤ room st.data) (hr : Inside data r) :
    Stored size ⟨file, st.fullRecords ++ [r], data, st.pos + n.sdiv 4#32⟩ := by
  refine ⟨?_, ?_, fun r' hr' ↦ ?_⟩
  · rw [List.length_append]
    exact hheads
  · rw [intSize] at hdata
    rw [hroom, intSize, toNat_add_sdiv hdvd hn (hdata.trans_lt hlt)]
    exact hdata
  · rcases List.mem_append.mp hr' with hold | hnew
    · exact (h.inside r' hold).congr hsome hroom
    · obtain rfl := List.mem_singleton.mp hnew
      exact hr

/-- There is room for what the rest of the file holds. -/
def Room (size : ℕ) (st : Reading) (records : List ℕ) : Prop :=
  recDataptrSize * (st.fullRecords.length + records.length) ≤ size ∧
    intSize * st.pos.toNat + records.sum ≤ room st.data

/-- The loop overruns the memory exactly if there is no room. -/
structure Reads (size : ℕ) (st : Reading) (records : List ℕ) (out : Except Stop Reading) :
    Prop where
  safe : Room size st records → out = .error .exit1 ∨ ∃ st', out = .ok st' ∧ Stored size st'
  overrun : ¬Room size st records → out = .error .overrun

variable {records : List ℕ} {left : ℕ}

theorem Reads.exit (h : Room size st records) : Reads size st records (.error .exit1) :=
  ⟨fun _ ↦ Or.inl rfl, fun hno ↦ absurd h hno⟩

theorem Reads.of_full (h : ¬Room size st records) : Reads size st records (.error .overrun) :=
  ⟨fun hroom ↦ absurd hroom h, fun _ ↦ rfl⟩

theorem Reads.ne_overrun_iff {out : Except Stop Reading} (h : Reads size st records out) :
    out ≠ .error .overrun ↔ Room size st records := by
  refine ⟨fun hout ↦ by_contra fun hno ↦ hout (h.overrun hno), fun hroom ↦ ?_⟩
  obtain rfl | ⟨st', rfl, -⟩ := h.safe hroom
  · exact nofun
  · exact nofun

theorem Reads.stored {out : Except Stop Reading} (h : Reads size st records out) {st' : Reading}
    (hout : out = .ok st') : Stored size st' := by
  have hroom := h.ne_overrun_iff.mp (by rw [hout]; exact nofun)
  obtain hexit | ⟨st'', hok, hst⟩ := h.safe hroom
  · rw [hexit] at hout
    cases hout
  · obtain rfl := Except.ok.inj (hok.symm.trans hout)
    exact hst

/-- After a round the rest of the file is measured from where the round has left off. -/
theorem Reads.next {st' : Reading} {n : ℕ} {out : Except Stop Reading}
    (h : Reads size st' records out)
    (hcount : st'.fullRecords.length = st.fullRecords.length + 1)
    (hpos : intSize * st'.pos.toNat = intSize * st.pos.toNat + n)
    (hroom : room st'.data = room st.data) : Reads size st (n :: records) out := by
  have hiff : Room size st' records ↔ Room size st (n :: records) := by
    rw [Room, Room, hcount, hpos, hroom, List.length_cons, List.sum_cons, Nat.add_assoc,
      Nat.add_assoc, Nat.add_comm 1]
  exact ⟨fun hr ↦ h.safe (hiff.mpr hr), fun hr ↦ h.overrun fun hr' ↦ hr (hiff.mp hr')⟩

theorem found_of_ne_nil (left : ℕ) (mapped : Bool) {file : List Byte} (h : file ≠ []) :
    ∃ n l, found mapped (left + 1) file = n :: l := by
  rw [found, if_neg h]
  simp only
  split_ifs <;> exact ⟨_, _, rfl⟩

section readInto

variable {b : Option Block} {off : ℕ} {n : BitVec 32} {file : List Byte}

theorem readInto_zero (hn : n = 0) : readInto b off n file = .ok (b, file) := if_pos hn

theorem readInto_unmapped (hn : n ≠ 0) (h : n.toInt < 0 ∨ b = none) :
    readInto b off n file = .error .exit1 := by
  rw [readInto.eq_def, if_neg hn]
  by_cases hneg : n.toInt < 0
  · exact if_pos hneg
  · rw [if_neg hneg, h.resolve_left hneg]
    rfl

/-- What there is of the data goes into memory before its size is looked at. -/
theorem readInto_some (hn : n ≠ 0) (hpos : ¬n.toInt < 0) (b : Block) :
    readInto (some b) off n file =
      if b.size < off + min n.toNat (min file.length maxTransfer) then .error .overrun
      else if min file.length maxTransfer < n.toNat then .error .exit1
      else .ok (some (b.store off (file.take n.toNat)), file.drop n.toNat) := by
  rw [readInto, if_neg hn, if_neg hpos]
  simp only [List.length_take]
  refine if_congr ?_ rfl ?_
  · rw [min_assoc, min_comm maxTransfer]
  · split_ifs
    · rfl
    · omega
    · omega
    · rw [min_eq_left (by omega)]
      rfl

end readInto

/-- **The first loop.** -/
theorem readRecords_reads (hdvd : recDataptrSize ∣ size) (h : Stored size st)
    (hlt : room st.data < 2 ^ 34) :
    Reads size st (found st.data.isSome left st.file) (readRecords (some size) left st) := by
  induction left generalizing st with
  | zero =>
    have hroom : Room size st [] := ⟨h.heads, h.data⟩
    exact ⟨fun _ ↦ Or.inr ⟨st, rfl, h⟩, fun hno ↦ absurd hroom hno⟩
  | succ left ih =>
    rw [readRecords]
    by_cases hnil : st.file = []
    · -- nothing is left
      rw [readRecord_short h (by rw [hnil]; decide) (absurd hnil), found, if_pos hnil]
      exact .exit ⟨h.heads, h.data⟩
    by_cases hfull : size < recDataptrSize * (st.fullRecords.length + 1)
    · rw [readRecord_full hdvd hnil hfull]
      obtain ⟨n, l, hfound⟩ := found_of_ne_nil left st.data.isSome hnil
      refine .of_full fun hroom ↦ ?_
      have hle := hroom.1
      rw [hfound, List.length_cons, recDataptrSize] at hle
      rw [recDataptrSize] at hfull
      omega
    have hheads := not_lt.mp hfull
    rw [found, if_neg hnil]
    by_cases hshort : st.file.length < recNodataSize
    · rw [readRecord_short h hshort fun _ ↦ hheads, if_pos hshort]
      exact .exit ⟨hheads, h.data⟩
    rw [readRecord_head (not_lt.mp hshort) hheads, if_neg hshort]
    simp only
    by_cases hzero : headSize st.file = 0
    · -- no data: nothing is stored
      rw [readInto_zero hzero, if_pos hzero]
      have hnext : Stored size ⟨st.file.drop recNodataSize, st.fullRecords ++ [element st], st.data,
          st.pos + (headSize st.file).sdiv 4#32⟩ :=
        h.next rfl rfl (four_dvd_headSize st.file) (by rw [hzero]; decide) hlt hheads
          (by rw [hzero]; exact h.data) (Or.inl hzero)
      refine (ih hnext hlt).next ?_ ?_ rfl
      · rw [List.length_append, List.length_singleton]
      · rw [hzero]
        simp
    rw [if_neg hzero]
    by_cases hmem : (headSize st.file).toInt < 0 ∨ st.data = none
    · rw [readInto_unmapped hzero hmem, if_pos (hmem.imp_right fun h ↦ by rw [h]; rfl)]
      exact .exit ⟨hheads, h.data⟩
    obtain ⟨hneg, hdata⟩ := not_or.mp hmem
    obtain ⟨b, hb⟩ := Option.ne_none_iff_exists'.mp hdata
    have hsize : room st.data = b.size := by
      rw [hb]
      rfl
    rw [if_neg (not_or.mpr ⟨hneg, by rw [hb]; exact nofun⟩)]
    generalize hrest : st.file.drop recNodataSize = rest
    rw [hb, readInto_some hzero hneg]
    by_cases hover : b.size <
        intSize * st.pos.toNat + min (headSize st.file).toNat (min rest.length maxTransfer)
    · rw [if_pos hover]
      split_ifs with hlen
      · refine .of_full fun hroom ↦ ?_
        have hle := hroom.2
        rw [hsize, List.sum_singleton] at hle
        omega
      · refine .of_full fun hroom ↦ ?_
        have hle := hroom.2
        rw [hsize, List.sum_cons] at hle
        omega
    rw [if_neg hover]
    by_cases hlen : min rest.length maxTransfer < (headSize st.file).toNat
    · rw [if_pos hlen, if_pos hlen]
      refine .exit ⟨hheads, ?_⟩
      rw [hsize, List.sum_singleton]
      omega
    rw [if_neg hlen, if_neg hlen]
    have hin : intSize * st.pos.toNat + (headSize st.file).toNat ≤ room st.data := by
      rw [hsize]
      omega
    have hnext : Stored size ⟨rest.drop (headSize st.file).toNat, st.fullRecords ++ [element st],
        some (b.store (intSize * st.pos.toNat) (rest.take (headSize st.file).toNat)),
        st.pos + (headSize st.file).sdiv 4#32⟩ :=
      h.next (by rw [hb]; rfl) (by rw [hb]; rfl) (four_dvd_headSize st.file) hneg hlt hheads hin
        (Or.inr ⟨not_lt.mp hneg, rfl, (not_lt.mp hlen).trans (min_le_right _ _),
          hin.trans_eq hsize⟩)
    have hreads := ih hnext (by rw [room_store, ← hb]; exact hlt)
    refine hreads.next ?_ ?_ hsize.symm
    · rw [List.length_append, List.length_singleton]
    · exact toNat_add_sdiv (four_dvd_headSize st.file) hneg (hin.trans_lt hlt)

/-! ## The second loop -/

theorem writeFrom_inside {data : Option Block} {r : RecDataptr} (h : Inside data r) :
    ∃ l, writeFrom data (intSize * r.dataPtr.toNat) (r.dataInts * 4#32) = .ok l := by
  rw [writeFrom.eq_def]
  by_cases hzero : r.dataInts * 4#32 = 0
  · exact ⟨[], if_pos hzero⟩
  · obtain ⟨hpos, hsome, hle, hin⟩ := h.resolve_left hzero
    obtain ⟨b, rfl⟩ := Option.isSome_iff_exists.mp hsome
    have hfits : ¬b.size < intSize * r.dataPtr.toNat
        + min (r.dataInts * 4#32).toNat maxTransfer := by
      rw [min_eq_left hle]
      exact not_lt.mpr hin
    rw [if_neg hzero, if_neg (not_lt.mpr hpos)]
    exact ⟨_, (if_neg hfits).trans (if_neg (not_lt.mpr hle))⟩

/-- Once all records have been read, they are written in full. -/
theorem writeRecords_inside {data : Option Block} {rs : List RecDataptr}
    (h : ∀ r ∈ rs, Inside data r) : ∃ out, writeRecords data rs = .ok out := by
  induction rs with
  | nil => exact ⟨[], rfl⟩
  | cons r rs ih =>
    obtain ⟨hr, hrs⟩ := List.forall_mem_cons.mp h
    obtain ⟨l, hl⟩ := writeFrom_inside hr
    obtain ⟨out, hout⟩ := ih hrs
    rw [writeRecords, hl, hout]
    exact ⟨_, rfl⟩

/-! ## The program -/

/-- The result of the first loop decides about the program. -/
theorem safe_bind {out : Except Stop Reading} {f : Reading → Except Stop (List Byte)}
    (hf : ∀ st, out = .ok st → ∃ bytes, f st = .ok bytes) :
    Safe (out >>= f) ↔ out ≠ .error .overrun := by
  rw [safe_iff]
  rcases out with e | st
  · have hinj : ∀ {α : Type}, (Except.error e : Except Stop α) = .error .overrun ↔ e = .overrun :=
      ⟨Except.error.inj, congrArg _⟩
    exact not_congr (hinj.trans hinj.symm)
  · obtain ⟨bytes, hbytes⟩ := hf st rfl
    refine ⟨fun _ ↦ nofun, fun _ ↦ ?_⟩
    change f st ≠ _
    rw [hbytes]
    exact nofun

/-- A size that can be had is not negative. -/
theorem sizeT_of_mapped {malloc : ℕ → Option (ℕ → Byte)}
    (hmalloc : ∀ n, 2 ^ 63 ≤ n → malloc n = none) {n : BitVec 32} (h : malloc (sizeT n) ≠ none) :
    sizeT n = n.toNat := by
  have hlt : sizeT n < 2 ^ 63 := not_le.mp fun hle ↦ h (hmalloc _ hle)
  apply sizeT_of_lt
  by_contra hbig
  have hmsb : n.msb = true := by
    rw [BitVec.msb_eq_decide, decide_eq_true_eq]
    omega
  rw [sizeT, BitVec.toNat_signExtend, hmsb] at hlt
  simp at hlt
  omega

variable {malloc : ℕ → Option (ℕ → Byte)}
  {qsort : (RecDataptr → RecDataptr → ℤ) → List RecDataptr → List RecDataptr}

theorem main_eq {file : List Byte} (h : intSize ≤ file.length) :
    main malloc qsort file = (do
      let st ← readRecords ((alloc malloc (announced file * 16#32)).map Block.size)
        (announced file).toNat ⟨file.drop intSize, [], alloc malloc ((BitVec.ofNat 32 file.length
          - 4#32 - 2#32 * announced file * 4#32) * 4#32), 0⟩
      let out ← writeRecords st.data (qsort compareDataptr st.fullRecords)
      pure (wordBytes (announced file) ++ out)) := by
  rw [main]
  exact if_neg (not_lt.mpr h)

theorem found_nil (mapped : Bool) (left : ℕ) : found mapped left [] = [] := by
  cases left with
  | zero => rfl
  | succ left => exact if_pos rfl

theorem fits_of_short {file : List Byte} (h : file.length < intSize) : Fits malloc file := by
  refine Or.inr ?_
  simp only [List.drop_eq_nil_of_le h.le, found_nil]
  exact ⟨Nat.zero_le _, Nat.zero_le _⟩

/-- Without memory for data none are stored. -/
theorem sum_found_unmapped (left : ℕ) (file : List Byte) : (found false left file).sum = 0 := by
  induction left generalizing file with
  | zero => rfl
  | succ left ih =>
    rw [found]
    simp only [or_true, if_true]
    split_ifs
    · rfl
    · rfl
    · rw [List.sum_cons, ih]
    · rfl

/-- The rest of the program after the first loop: whatever it has read, it writes. -/
theorem safe_rest_iff (hqsort : Qsort.Contract qsort) {head : List Byte} {out : Except Stop Reading}
    (h : ∀ st, out = .ok st → ∀ r ∈ st.fullRecords, Inside st.data r) :
    Safe (do
      let st ← out
      let rest ← writeRecords st.data (qsort compareDataptr st.fullRecords)
      pure (head ++ rest)) ↔ out ≠ .error .overrun := by
  refine safe_bind fun st hst ↦ ?_
  obtain ⟨rest, hrest⟩ := writeRecords_inside fun r hr ↦
    h st hst r ((hqsort.perm compareDataptr st.fullRecords).mem_iff.mp hr)
  exact ⟨head ++ rest, by rw [hrest]; rfl⟩

/-- Without memory for `fullRecords` no record is read. -/
theorem readRecords_none (left : ℕ) (st : Reading) :
    readRecords none left st = if left = 0 then .ok st else .error .exit1 := by
  cases left with
  | zero => rfl
  | succ left => rfl

theorem room_alloc (hmalloc : ∀ n, 2 ^ 63 ≤ n → malloc n = none) {n : BitVec 32} :
    room (alloc malloc n) = if malloc (sizeT n) = none then 0 else n.toNat := by
  rw [room, alloc]
  by_cases h : malloc (sizeT n) = none
  · rw [h, if_pos rfl]
    rfl
  · obtain ⟨byte, hbyte⟩ := Option.ne_none_iff_exists'.mp h
    rw [if_neg h, ← sizeT_of_mapped hmalloc h, hbyte]
    rfl

theorem room_start_iff (hmalloc : ∀ n, 2 ^ 63 ≤ n → malloc n = none) {n : BitVec 32} {left : ℕ}
    {file : List Byte} :
    Room size ⟨file, [], alloc malloc n, 0⟩ (found (alloc malloc n).isSome left file) ↔
      recDataptrSize * (found (malloc (sizeT n)).isSome left file).length ≤ size ∧
        (found (malloc (sizeT n)).isSome left file).sum ≤ sizeT n := by
  have hsome : (alloc malloc n).isSome = (malloc (sizeT n)).isSome := Option.isSome_map
  have hsum : intSize * (0#32).toNat + (found (malloc (sizeT n)).isSome left file).sum
      ≤ room (alloc malloc n) ↔ (found (malloc (sizeT n)).isSome left file).sum ≤ sizeT n := by
    rw [room_alloc hmalloc]
    by_cases h : malloc (sizeT n) = none
    · rw [h, Option.isSome_none, sum_found_unmapped]
      exact iff_of_true (Nat.zero_le _) (Nat.zero_le _)
    · rw [if_neg h, sizeT_of_mapped hmalloc h]
      exact Iff.of_eq (congrArg (· ≤ _) (Nat.zero_add _))
  rw [Room, hsome, List.length_nil, Nat.zero_add]
  exact and_congr_right fun _ ↦ hsum

theorem safe_main_iff (hmalloc : ∀ n, 2 ^ 63 ≤ n → malloc n = none) (hqsort : Qsort.Contract qsort)
    (file : List Byte) : Safe (main malloc qsort file) ↔ Fits malloc file := by
  by_cases hshort : file.length < intSize
  · refine iff_of_true ?_ (fits_of_short hshort)
    rw [main]
    exact Or.inr (if_pos hshort)
  rw [main_eq (not_lt.mp hshort)]
  generalize hn : (BitVec.ofNat 32 file.length - 4#32 - 2#32 * announced file * 4#32) * 4#32 = n
  have hdata : dataSize file = sizeT n := by rw [dataSize, hn]
  cases hfull : malloc (fullRecordsSize file) with
  | none =>
    have halloc : (alloc malloc (announced file * 16#32)).map Block.size = none := by
      rw [alloc, ← fullRecordsSize, hfull]
      rfl
    rw [halloc, readRecords_none]
    refine (safe_rest_iff hqsort ?_).trans (iff_of_true ?_ (Or.inl hfull))
    · intro st hst r hr
      split_ifs at hst
      · obtain rfl := Except.ok.inj hst
        cases hr
    · split_ifs
      · exact nofun
      · exact nofun
  | some full =>
    have halloc : (alloc malloc (announced file * 16#32)).map Block.size
        = some (fullRecordsSize file) := by
      rw [alloc, ← fullRecordsSize, hfull]
      rfl
    have hdvd : recDataptrSize ∣ fullRecordsSize file := by
      have hmapped : malloc (fullRecordsSize file) ≠ none := by
        rw [hfull]
        exact nofun
      rw [fullRecordsSize, sizeT_of_mapped hmalloc hmapped, BitVec.toNat_mul, recDataptrSize]
      change 16 ∣ _ * 16 % 2 ^ 32
      omega
    have hlt : room (alloc malloc n) < 2 ^ 34 := by
      rw [room_alloc hmalloc]
      split_ifs
      · decide
      · exact n.isLt.trans (by decide)
    have hreads : Reads _ _ _ (readRecords _ (announced file).toNat _) := readRecords_reads hdvd
      (Stored.start (fullRecordsSize file) (file.drop intSize) (alloc malloc n)) hlt
    rw [halloc]
    refine (safe_rest_iff hqsort fun st hst ↦ ?_).trans ?_
    · exact (hreads.stored hst).inside
    · rw [hreads.ne_overrun_iff, room_start_iff hmalloc]
      simp only [Fits, hfull, hdata, reduceCtorEq, false_or]

/-- **`varsort` on any file.** With every `malloc` that refuses what no object can have as its size,
and every `qsort`. -/
theorem varsort_safe_iff (malloc : ℕ → Option (ℕ → Byte))
    (qsort : (RecDataptr → RecDataptr → ℤ) → List RecDataptr → List RecDataptr)
    (hmalloc : ∀ n, 2 ^ 63 ≤ n → malloc n = none) (hqsort : Qsort.Contract qsort)
    (file : List Byte) : Safe (main malloc qsort file) ↔ Fits malloc file :=
  safe_main_iff hmalloc hqsort file

/-- A `malloc` that never fails for a size that an object can have. -/
def mallocBelow (n : ℕ) : Option (ℕ → Byte) := if n < 2 ^ 63 then some fun _ ↦ 0 else none

theorem mallocBelow_eq_none (n : ℕ) (h : 2 ^ 63 ≤ n) : mallocBelow n = none := if_neg (not_lt.mpr h)

/-- A file that announces three records and breaks off in the head of the third. -/
theorem varsort_safe_three :
    Safe (main mallocBelow (fun cmp l ↦ Qsort.order (fun x y ↦ cmp x y ≤ 0) l)
      (wordBytes 3 ++ wordBytes 7 ++ wordBytes 2 ++ wordBytes 0 ++ [1, 2] ++
        List.replicate 12 0)) :=
  (varsort_safe_iff _ _ mallocBelow_eq_none Qsort.contract_order _).mpr (Or.inr (by decide))

/-- The count `2 ^ 28` makes the size of `fullRecords` wrap around to nothing. -/
theorem not_varsort_safe : ¬∀ (malloc : ℕ → Option (ℕ → Byte))
    (qsort : (RecDataptr → RecDataptr → ℤ) → List RecDataptr → List RecDataptr)
    (file : List Byte), (∀ n, 2 ^ 63 ≤ n → malloc n = none) → Qsort.Contract qsort →
      Safe (main malloc qsort file) := by
  intro h
  have hfits := (safe_main_iff mallocBelow_eq_none Qsort.contract_order _).mp
    (h mallocBelow _ (wordBytes 0x10000000 ++ wordBytes 7 ++ wordBytes 0) mallocBelow_eq_none
      Qsort.contract_order)
  rcases hfits with hnone | ⟨hheads, -⟩
  · cases hnone
  · revert hheads
    decide

end CS537.Varsort
