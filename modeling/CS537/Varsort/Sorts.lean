import CS537.Lib.Qsort
import CS537.Varsort.Program
import Mathlib.Data.List.Forall2
import Mathlib.Data.Nat.Basic

/-!
# `varsort` sorts

On a file that holds what its lengths say, the first loop fills `fullRecords` and `data` with the
records, and the second loop writes them in the order that `qsort` has left them in. That order
hangs on `compareDataptr`, which returns the difference of two unsigned keys as an `int`: it
compares keys that are less than `2 ^ 31` apart, and misjudges the others.
-/

namespace CS537.Varsort

/-! ## The first loop -/

/-- An element of `fullRecords` with its words in `data` below the index `pos`. -/
structure Holds (b : Block) (pos : ℕ) (x : RecDataptr) (r : Record) : Prop where
  key : x.key = r.key
  len : x.dataInts = r.len
  below : x.dataPtr.toNat + r.data.length ≤ pos
  load : b.load (intSize * x.dataPtr.toNat) (intSize * r.data.length) = r.data.flatMap wordBytes

/-- Some records have been read and others are left. -/
structure Between (size : ℕ) (done left : List Record) (st : Reading) : Prop where
  file : st.file = left.flatMap Record.bytes
  pos : st.pos.toNat = words done
  data : ∃ b, st.data = some b ∧ b.size = size ∧
    List.Forall₂ (Holds b (words done)) st.fullRecords done

variable {size : ℕ} {done left : List Record} {st : Reading} {r : Record}

/-- A store behind the words of an element does not change them. -/
theorem Holds.store {b : Block} {pos pos' : ℕ} {x : RecDataptr} (h : Holds b pos x r)
    (hpos : pos ≤ pos') (l : List Byte) : Holds (b.store (intSize * pos) l) pos' x r := by
  refine ⟨h.key, h.len, h.below.trans hpos, ?_⟩
  rw [Block.load_store_of_le b, h.load]
  rw [← Nat.mul_add]
  exact Nat.mul_le_mul_left intSize h.below

/-- The size of the data words of a record. -/
theorem toNat_dataSize (h : r.data.length < 2 ^ 28) :
    (r.len * 4#32).toNat = intSize * r.data.length := by
  rw [BitVec.toNat_mul, Record.len, BitVec.toNat_ofNat, intSize]
  change r.data.length % 2 ^ 32 * 4 % 2 ^ 32 = _
  omega

theorem data_eq_nil (h : r.data.length < 2 ^ 28) (hzero : r.len * 4#32 = 0) : r.data = [] := by
  have hnat := toNat_dataSize h
  rw [hzero] at hnat
  exact List.length_eq_zero_iff.mp ((Nat.mul_eq_zero.mp hnat.symm).resolve_left (by decide))

theorem toNat_sdiv_dataSize (h : r.data.length < 2 ^ 28) :
    ((r.len * 4#32).sdiv 4#32).toNat = r.data.length := by
  have hnat := toNat_dataSize h
  have hmsb : (r.len * 4#32).msb = false := by
    rw [BitVec.msb_eq_decide, hnat, intSize]
    simp only [decide_eq_false_iff_not]
    omega
  rw [BitVec.sdiv, hmsb]
  change (r.len * 4#32 / 4#32).toNat = _
  rw [BitVec.toNat_udiv, hnat]
  exact Nat.mul_div_cancel_left _ (by decide)

theorem head_bytes (r : Record) (l : List Byte) :
    (r.bytes ++ l).take recNodataSize = wordBytes r.key ++ wordBytes r.len := by
  rw [Record.bytes, List.append_assoc]
  exact List.take_left' rfl

theorem tail_bytes (r : Record) (l : List Byte) :
    (r.bytes ++ l).drop recNodataSize = r.data.flatMap wordBytes ++ l := by
  rw [Record.bytes, List.append_assoc]
  exact List.drop_left' rfl

/-- Reading the words of one record to the end of `data`. -/
theorem readInto_data (b : Block) (pos : ℕ) (hlen : r.data.length < 2 ^ 28)
    (hsize : intSize * (pos + r.data.length) ≤ b.size) (l : List Byte) :
    readInto (some b) (intSize * pos) (r.len * 4#32) (r.data.flatMap wordBytes ++ l)
      = .ok (some (b.store (intSize * pos) (r.data.flatMap wordBytes)), l) := by
  have hnat := toNat_dataSize hlen
  have hbytes := length_flatMap_wordBytes r.data
  rw [readInto]
  by_cases hzero : r.len * 4#32 = 0
  · -- no words: nothing is stored
    rw [if_pos hzero, data_eq_nil hlen hzero]
    have hsame : b.store (intSize * pos) [] = b := by
      rw [Block.store]
      congr 1
      funext i
      simp
    change _ = Except.ok (some (b.store (intSize * pos) []), l)
    rw [hsame]
    rfl
  · have hsmall : (r.len * 4#32).toNat < 2 ^ 31 := by
      rw [hnat, intSize]
      omega
    have hone : min (intSize * r.data.length) maxTransfer = intSize * r.data.length := by
      refine min_eq_left ?_
      rw [intSize, maxTransfer]
      omega
    rw [if_neg hzero, toInt_of_lt hsmall, if_neg (by omega), hnat]
    simp only
    rw [hone, List.take_left' hbytes, List.drop_left' hbytes, hbytes, ← Nat.mul_add,
      if_neg (not_lt.mpr hsize), if_neg (lt_irrefl _)]
    rfl

/-- **One round of the first loop.** -/
theorem readRecord_spec {room : ℕ} (h : Between size done (r :: left) st)
    (hroom : recDataptrSize * (done.length + 1) ≤ room)
    (hsize : intSize * words (done ++ [r]) ≤ size) (hwords : words (done ++ [r]) < 2 ^ 28) :
    ∃ st', readRecord (some room) st = .ok st' ∧ Between size (done ++ [r]) left st' := by
  obtain ⟨b, hb, hbsize, hall⟩ := h.data
  have hcount : st.fullRecords.length = done.length := hall.length_eq
  rw [words_append, words_cons, words_nil, Nat.add_zero] at hsize hwords
  have hlen : r.data.length < 2 ^ 28 := by omega
  have hread := readInto_data b (words done) hlen (by rwa [hbsize])
    (left.flatMap Record.bytes)
  rw [readRecord, h.file, List.flatMap_cons]
  simp only [head_bytes, tail_bytes, hb, h.pos, hcount]
  rw [if_neg (by
      simp only [List.length_append, length_wordBytes, intSize, recDataptrSize] at *
      omega),
    if_neg (by simp only [List.length_append, length_wordBytes, intSize, recNodataSize]; omega),
    if_neg (not_lt.mpr hroom)]
  have hkey : word ((wordBytes r.key ++ wordBytes r.len).take intSize) = r.key := by
    rw [List.take_left' (length_wordBytes _), word_wordBytes]
  have hints : word ((wordBytes r.key ++ wordBytes r.len).drop intSize) = r.len := by
    rw [List.drop_left' (length_wordBytes _), word_wordBytes]
  rw [hkey, hints, hread]
  have hpos : (st.pos + (r.len * 4#32).sdiv 4#32).toNat = words done + r.data.length := by
    rw [BitVec.toNat_add, toNat_sdiv_dataSize hlen, h.pos, Nat.mod_eq_of_lt (by omega)]
  refine ⟨_, rfl, rfl, ?_, _, rfl, hbsize, ?_⟩
  · rw [hpos, words_append, words_cons, words_nil, Nat.add_zero]
  · rw [words_append, words_cons, words_nil, Nat.add_zero]
    refine List.rel_append (hall.imp fun x r' hx ↦ hx.store (Nat.le_add_right _ _) _) ?_
    refine .cons ⟨rfl, rfl, ?_, ?_⟩ .nil
    · rw [h.pos]
    · simp only [h.pos]
      rw [← length_flatMap_wordBytes, Block.load_store]

/-- **The first loop.** -/
theorem readRecords_spec (room : ℕ) (h : Between size done left st)
    (hroom : recDataptrSize * (done.length + left.length) ≤ room)
    (hsize : intSize * words (done ++ left) ≤ size) (hwords : words (done ++ left) < 2 ^ 28) :
    ∃ st', readRecords (some room) left.length st = .ok st' ∧
      Between size (done ++ left) [] st' := by
  induction left generalizing done st with
  | nil =>
    rw [List.append_nil]
    exact ⟨st, rfl, h⟩
  | cons r left ih =>
    have hsplit : done ++ r :: left = done ++ [r] ++ left := by
      rw [List.append_assoc, List.singleton_append]
    rw [hsplit] at hsize hwords ⊢
    rw [List.length_cons] at hroom
    rw [words_append] at hsize hwords
    obtain ⟨st₁, hread, hst₁⟩ := readRecord_spec h
      ((Nat.mul_le_mul_left _ (by omega)).trans hroom)
      ((Nat.mul_le_mul_left _ (Nat.le_add_right _ _)).trans hsize) (by omega)
    rw [← words_append] at hsize hwords
    obtain ⟨st', hrest, hst'⟩ := ih hst₁ (by
      rw [List.length_append, List.length_singleton, Nat.add_assoc, Nat.add_comm 1]
      exact hroom) hsize hwords
    refine ⟨st', ?_, hst'⟩
    rw [List.length_cons, readRecords, hread]
    exact hrest

/-! ## The second loop -/

/-- The elements of `fullRecords` are written with their words, in whatever order they stand. -/
theorem writeRecords_spec {b : Block} {pos : ℕ} {xs : List RecDataptr} {rs : List Record}
    (h : List.Forall₂ (Holds b pos) xs rs) (hpos : intSize * pos ≤ b.size) (hlt : pos < 2 ^ 28) :
    writeRecords (some b) xs = .ok (rs.flatMap Record.bytes) := by
  induction h with
  | nil => rfl
  | @cons x r xs rs hx _ ih =>
    have hbelow := hx.below
    have hlen : r.data.length < 2 ^ 28 := by omega
    have hwrite : writeFrom (some b) (intSize * x.dataPtr.toNat) (x.dataInts * 4#32)
        = .ok (r.data.flatMap wordBytes) := by
      have hnat := toNat_dataSize hlen
      rw [hx.len, writeFrom]
      by_cases hzero : r.len * 4#32 = 0
      · rw [if_pos hzero, data_eq_nil hlen hzero]
        rfl
      · have hsmall : (r.len * 4#32).toNat < 2 ^ 31 := by
          rw [hnat, intSize]
          omega
        rw [if_neg hzero, toInt_of_lt hsmall, if_neg (by omega), hnat]
        have hin : intSize * x.dataPtr.toNat + intSize * r.data.length ≤ b.size := by
          rw [← Nat.mul_add]
          exact (Nat.mul_le_mul_left _ hbelow).trans hpos
        have hle : intSize * r.data.length ≤ maxTransfer := by
          rw [intSize, maxTransfer]
          omega
        simp only [min_eq_left hle, if_neg (not_lt.mpr hin), if_neg (not_lt.mpr hle), hx.load]
        rfl
    rw [writeRecords, hwrite, ih, List.flatMap_cons, Record.bytes, hx.key, hx.len]
    rfl

/-! ## The program -/

theorem alloc_of_lt {malloc : ℕ → Option (ℕ → Byte)} (hmalloc : ∀ n, (malloc n).isSome)
    {n : BitVec 32} (hn : n.toNat < 2 ^ 31) : ∃ b, alloc malloc n = some b ∧ b.size = n.toNat := by
  obtain ⟨byte, hbyte⟩ := Option.isSome_iff_exists.mp (hmalloc (sizeT n))
  refine ⟨⟨sizeT n, byte⟩, ?_, sizeT_of_lt hn⟩
  rw [alloc, hbyte]
  rfl

/-- **What the program makes of a file**, up to the order that `qsort` chooses: `xs` is what it is
given to sort. -/
theorem main_spec {malloc : ℕ → Option (ℕ → Byte)} (hmalloc : ∀ n, (malloc n).isSome)
    {rs : List Record} (hsize : (fileBytes rs).length < 2 ^ 29) :
    ∃ b pos xs, List.Forall₂ (Holds b pos) xs rs ∧
      ∀ qsort, (qsort compareDataptr xs).Perm xs → ∃ rs', rs'.Perm rs ∧
        List.Forall₂ (Holds b pos) (qsort compareDataptr xs) rs' ∧
        main malloc qsort (fileBytes rs) = .ok (fileBytes rs') := by
  have hlength := length_fileBytes rs
  rw [hlength] at hsize
  have hcount : word ((fileBytes rs).take intSize) = BitVec.ofNat 32 rs.length := by
    rw [fileBytes, List.take_left' (length_wordBytes _), word_wordBytes]
  have hn : (BitVec.ofNat 32 rs.length).toNat = rs.length := by
    rw [BitVec.toNat_ofNat, Nat.mod_eq_of_lt (by omega)]
  have hfull : (BitVec.ofNat 32 rs.length * 16#32).toNat = recDataptrSize * rs.length := by
    rw [BitVec.toNat_mul, hn, recDataptrSize]
    change rs.length * 16 % 2 ^ 32 = _
    omega
  have hdata : ((BitVec.ofNat 32 (fileBytes rs).length - 4#32
      - 2#32 * BitVec.ofNat 32 rs.length * 4#32) * 4#32).toNat = 16 * words rs := by
    rw [hlength]
    simp only [BitVec.toNat_mul, BitVec.toNat_sub, BitVec.toNat_ofNat]
    omega
  obtain ⟨b₀, hb₀, hroom⟩ := alloc_of_lt hmalloc (n := BitVec.ofNat 32 rs.length * 16#32)
    (by rw [hfull, recDataptrSize]; omega)
  obtain ⟨b₁, hb₁, hpool⟩ := alloc_of_lt hmalloc (n := (BitVec.ofNat 32 (fileBytes rs).length - 4#32
    - 2#32 * BitVec.ofNat 32 rs.length * 4#32) * 4#32) (by rw [hdata]; omega)
  rw [hfull] at hroom
  rw [hdata] at hpool
  have hstart : Between (16 * words rs) [] rs ⟨(fileBytes rs).drop intSize, [], some b₁, 0⟩ :=
    ⟨List.drop_left' (length_wordBytes _), rfl, b₁, rfl, hpool, .nil⟩
  obtain ⟨st, hread, -, -, b, hb, hbsize, hall⟩ := readRecords_spec b₀.size hstart
    (by rw [hroom, List.length_nil, Nat.zero_add]) (by rw [List.nil_append, intSize]; omega)
    (by rw [List.nil_append]; omega)
  rw [List.nil_append] at hall
  refine ⟨b, words rs, st.fullRecords, hall, fun qsort hperm ↦ ?_⟩
  obtain ⟨rs', hall', hperm'⟩ := List.perm_comp_forall₂ hperm hall
  have hwrite := writeRecords_spec hall' (by rw [hbsize, intSize]; omega) (by omega)
  refine ⟨rs', hperm', hall', ?_⟩
  rw [main, if_neg (by rw [hlength, intSize]; omega)]
  simp only [hcount, hb₀, hb₁, hn, Option.map_some]
  rw [hread]
  change (do
    let out ← writeRecords st.data (qsort compareDataptr st.fullRecords)
    pure (wordBytes (BitVec.ofNat 32 rs.length) ++ out)) = _
  rw [hb, hwrite, fileBytes, hperm'.length_eq]
  rfl

/-! ## The comparison function -/

theorem compareDataptr_near {x y : RecDataptr} (h1 : x.key.toNat < y.key.toNat + 2 ^ 31)
    (h2 : y.key.toNat < x.key.toNat + 2 ^ 31) :
    compareDataptr x y = (x.key.toNat : ℤ) - y.key.toNat := by
  have hx := x.key.isLt
  have hy := y.key.isLt
  rw [compareDataptr, BitVec.toInt_eq_toNat_cond, BitVec.toNat_sub]
  split <;> omega

/-- A key that is too far above another passes for the smaller one. -/
theorem compareDataptr_far {x y : RecDataptr} (h : y.key.toNat + 2 ^ 31 ≤ x.key.toNat) :
    compareDataptr x y < 0 := by
  have hx := x.key.isLt
  rw [compareDataptr, BitVec.toInt_eq_toNat_cond, BitVec.toNat_sub]
  split <;> omega

/-- When the function orders the elements by their keys. -/
theorem compareDataptr_iff (xs : List RecDataptr) :
    (∀ x ∈ xs, ∀ y ∈ xs, x.key.toNat < y.key.toNat →
      Qsort.Consistent compareDataptr xs ∧ compareDataptr x y < 0) ↔
      ∀ x ∈ xs, ∀ y ∈ xs, x.key.toNat < y.key.toNat + 2 ^ 31 := by
  constructor
  · intro h x hx y hy
    by_contra hfar
    obtain ⟨hcons, hneg⟩ := h y hy x hx (by omega)
    have hpos := (hcons.sign x hx y hy).mpr hneg
    have := compareDataptr_far (not_lt.mp hfar)
    omega
  · intro h
    have heq : ∀ x ∈ xs, ∀ y ∈ xs, compareDataptr x y = (x.key.toNat : ℤ) - y.key.toNat :=
      fun x hx y hy ↦ compareDataptr_near (h x hx y hy) (h y hy x hx)
    intro x hx y hy hlt
    refine ⟨⟨fun a ha b hb ↦ ?_, fun a ha b hb c hc ↦ ?_⟩, ?_⟩
    · rw [heq a ha b hb, heq b hb a ha]
      omega
    · rw [heq a ha b hb, heq b hb c hc, heq a ha c hc]
      omega
    · rw [heq x hx y hy]
      omega

/-! ## What is sorted -/

/-- The output is the count and a permutation of the records by unsigned key. -/
def Sorts (rs : List Record) (out : Except Stop (List Byte)) : Prop :=
  ∃ rs', out = .ok (fileBytes rs') ∧ rs'.Perm rs ∧
    rs'.Pairwise fun r r' ↦ r.key.toNat ≤ r'.key.toNat

theorem keys_eq {b : Block} {pos : ℕ} {xs : List RecDataptr} {rs : List Record}
    (h : List.Forall₂ (Holds b pos) xs rs) :
    xs.map (fun x ↦ x.key.toNat) = rs.map fun r ↦ r.key.toNat := by
  induction h with
  | nil => rfl
  | cons hx _ ih => rw [List.map_cons, List.map_cons, ih, hx.key]

/-- `varsort` sorts with every `qsort`, if and only if the keys are less than `2 ^ 31` apart. -/
theorem sorts_iff (malloc : ℕ → Option (ℕ → Byte)) (rs : List Record)
    (hmalloc : ∀ n, (malloc n).isSome) (hsize : (fileBytes rs).length < 2 ^ 29) :
    (∀ qsort, Qsort.Contract qsort → Sorts rs (main malloc qsort (fileBytes rs))) ↔
      ∀ r ∈ rs, ∀ r' ∈ rs, r.key.toNat < r'.key.toNat + 2 ^ 31 := by
  obtain ⟨b, pos, xs, hall, hmain⟩ := main_spec hmalloc hsize
  have hwords : words rs < 2 ^ 32 := by
    have hlength := length_fileBytes rs
    omega
  have hsorts : ∀ qsort, Qsort.Contract qsort → (Sorts rs (main malloc qsort (fileBytes rs)) ↔
      (qsort compareDataptr xs).Pairwise fun x y ↦ x.key.toNat ≤ y.key.toNat) := by
    intro qsort hq
    obtain ⟨rs', hperm, hall', hout⟩ := hmain qsort (hq.perm _ _)
    have hkeys : (qsort compareDataptr xs).Pairwise (fun x y ↦ x.key.toNat ≤ y.key.toNat) ↔
        rs'.Pairwise fun r r' ↦ r.key.toNat ≤ r'.key.toNat := by
      rw [← List.pairwise_map (f := fun x : RecDataptr ↦ x.key.toNat) (R := (· ≤ ·)), keys_eq hall',
        List.pairwise_map]
    rw [hkeys, hout]
    constructor
    · rintro ⟨rs'', heq, hperm'', hsorted⟩
      have hwords' : words rs' < 2 ^ 32 := (words_perm hperm).trans_lt hwords
      rwa [fileBytes_injective (hperm.trans hperm''.symm) hwords' (Except.ok.inj heq)]
    · intro hsorted
      exact ⟨rs', rfl, hperm, hsorted⟩
  have hkeys : (∀ x ∈ xs, ∀ y ∈ xs, x.key.toNat < y.key.toNat + 2 ^ 31) ↔
      ∀ r ∈ rs, ∀ r' ∈ rs, r.key.toNat < r'.key.toNat + 2 ^ 31 := by
    have hmap := keys_eq hall
    have hnear : (∀ k ∈ xs.map fun x ↦ x.key.toNat, ∀ k' ∈ xs.map fun x ↦ x.key.toNat,
        k < k' + 2 ^ 31) ↔ ∀ k ∈ rs.map fun r ↦ r.key.toNat, ∀ k' ∈ rs.map fun r ↦ r.key.toNat,
        k < k' + 2 ^ 31 := by rw [hmap]
    simpa only [List.forall_mem_map] using hnear
  rw [← hkeys, ← compareDataptr_iff, ← Qsort.forall_sorted_iff]
  exact forall₂_congr hsorts

/-- **`varsort` sorts.** With every `malloc` that succeeds, for every file of less than `2 ^ 29`
bytes. -/
theorem varsort_sorts_iff (malloc : ℕ → Option (ℕ → Byte)) (hmalloc : ∀ n, (malloc n).isSome)
    (rs : List Record) (hsize : (fileBytes rs).length < 2 ^ 29) :
    (∀ qsort, Qsort.Contract qsort → Sorts rs (main malloc qsort (fileBytes rs))) ↔
      ∀ r ∈ rs, ∀ r' ∈ rs, r.key.toNat < r'.key.toNat + 2 ^ 31 :=
  sorts_iff malloc rs hmalloc hsize

/-- Two records, the larger key first, sorted by merge sort. -/
theorem varsort_sorts_two :
    Sorts [⟨7, [1, 2]⟩, ⟨5, []⟩] (main (fun _ ↦ some fun _ ↦ 0)
      (fun cmp l ↦ Qsort.order (fun x y ↦ cmp x y ≤ 0) l) (fileBytes [⟨7, [1, 2]⟩, ⟨5, []⟩])) :=
  (varsort_sorts_iff _ (fun _ ↦ rfl) _ (by decide)).mpr (by decide) _ Qsort.contract_order

/-- The keys 0 and `2 ^ 31 + 1`. -/
theorem not_varsort_sorts : ¬∀ (malloc : ℕ → Option (ℕ → Byte)) (rs : List Record)
    (qsort : (RecDataptr → RecDataptr → ℤ) → List RecDataptr → List RecDataptr),
    (∀ n, (malloc n).isSome) → (fileBytes rs).length < 2 ^ 29 → Qsort.Contract qsort →
      Sorts rs (main malloc qsort (fileBytes rs)) := by
  intro h
  have hnear := (sorts_iff (fun _ ↦ some fun _ ↦ 0) [⟨0, []⟩, ⟨0x80000001, []⟩] (fun _ ↦ rfl)
    (by decide)).mp fun qsort hq ↦ h _ _ qsort (fun _ ↦ rfl) (by decide) hq
  revert hnear
  decide

end CS537.Varsort
