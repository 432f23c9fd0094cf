import Mathlib.Algebra.GroupWithZero.Nat

/-!
# The files of `varsort`

A record count, and for each record an unsigned key, a length and that many words; all of them are
words of four bytes, the lowest byte first.
-/

namespace CS537.Varsort

abbrev Byte := BitVec 8

/-- `sizeof(int)`. -/
def intSize : ℕ := 4

/-- A word in memory. -/
def wordBytes (w : BitVec 32) : List Byte :=
  [w.extractLsb' 0 8, w.extractLsb' 8 8, w.extractLsb' 16 8, w.extractLsb' 24 8]

/-- The word that four bytes make up. -/
def word : List Byte → BitVec 32
  | [a, b, c, d] => d ++ c ++ b ++ a
  | _ => 0

theorem word_wordBytes (w : BitVec 32) : word (wordBytes w) = w := by
  apply BitVec.eq_of_toNat_eq
  simp only [word, wordBytes, BitVec.toNat_append, BitVec.extractLsb'_toNat,
    Nat.shiftRight_eq_div_pow]
  have h := w.isLt
  generalize w.toNat = n at h
  have horlt : ∀ a b, b < 2 ^ 8 → a <<< 8 ||| b = a * 256 + b := fun a b hb ↦ by
    rw [← Nat.shiftLeft_add_eq_or_of_lt hb, Nat.shiftLeft_eq]
  rw [horlt _ _ (Nat.mod_lt _ (by decide)), horlt _ _ (Nat.mod_lt _ (by decide)),
    horlt _ _ (Nat.mod_lt _ (by decide))]
  omega

@[simp] theorem length_wordBytes (w : BitVec 32) : (wordBytes w).length = intSize := rfl

theorem wordBytes_injective {w w' : BitVec 32} (h : wordBytes w = wordBytes w') : w = w' := by
  rw [← word_wordBytes w, h, word_wordBytes]

/-! ## Records -/

structure Record where
  key : BitVec 32
  data : List (BitVec 32)
  deriving DecidableEq, Repr

namespace Record

/-- The length as it stands in the file. -/
def len (r : Record) : BitVec 32 := BitVec.ofNat 32 r.data.length

def bytes (r : Record) : List Byte := wordBytes r.key ++ wordBytes r.len ++ r.data.flatMap wordBytes

end Record

/-- The number of data words. -/
def words (rs : List Record) : ℕ := (rs.map fun r ↦ r.data.length).sum

@[simp] theorem words_nil : words [] = 0 := rfl

@[simp] theorem words_cons (r : Record) (rs : List Record) :
    words (r :: rs) = r.data.length + words rs := rfl

@[simp] theorem words_append (rs rs' : List Record) : words (rs ++ rs') = words rs + words rs' := by
  rw [words, List.map_append, List.sum_append, words, words]

/-- The file with these records. -/
def fileBytes (rs : List Record) : List Byte :=
  wordBytes (BitVec.ofNat 32 rs.length) ++ rs.flatMap Record.bytes

theorem length_flatMap_wordBytes (l : List (BitVec 32)) :
    (l.flatMap wordBytes).length = intSize * l.length := by
  induction l with
  | nil => rfl
  | cons w l ih =>
    rw [List.flatMap_cons, List.length_append, ih, length_wordBytes, List.length_cons, Nat.mul_succ,
      Nat.add_comm]

theorem Record.length_bytes (r : Record) : r.bytes.length = 8 + 4 * r.data.length := by
  rw [Record.bytes, List.length_append, List.length_append, length_flatMap_wordBytes]
  rfl

theorem length_flatMap_bytes (rs : List Record) :
    (rs.flatMap Record.bytes).length = 8 * rs.length + 4 * words rs := by
  induction rs with
  | nil => rfl
  | cons r rs ih =>
    rw [List.flatMap_cons, List.length_append, ih, r.length_bytes, List.length_cons, words_cons]
    omega

theorem length_fileBytes (rs : List Record) :
    (fileBytes rs).length = 4 + 8 * rs.length + 4 * words rs := by
  rw [fileBytes, List.length_append, length_flatMap_bytes, length_wordBytes, Nat.add_assoc]
  rfl

/-! ## A file determines its records -/

theorem flatMap_wordBytes_injective {l l' : List (BitVec 32)} {t t' : List Byte}
    (hlen : l.length = l'.length) (h : l.flatMap wordBytes ++ t = l'.flatMap wordBytes ++ t') :
    l = l' ∧ t = t' := by
  induction l generalizing l' with
  | nil =>
    obtain rfl := List.length_eq_zero_iff.mp hlen.symm
    exact ⟨rfl, h⟩
  | cons w l ih =>
    cases l' with
    | nil => cases hlen
    | cons w' l' =>
      rw [List.flatMap_cons, List.flatMap_cons, List.append_assoc, List.append_assoc] at h
      obtain ⟨hw, hrest⟩ := List.append_inj h rfl
      obtain ⟨rfl, rfl⟩ := ih (Nat.succ.inj hlen) hrest
      rw [wordBytes_injective hw]
      exact ⟨rfl, rfl⟩

theorem Record.bytes_injective {r r' : Record} {t t' : List Byte} (hr : r.data.length < 2 ^ 32)
    (hr' : r'.data.length < 2 ^ 32) (h : r.bytes ++ t = r'.bytes ++ t') : r = r' ∧ t = t' := by
  simp only [Record.bytes, List.append_assoc] at h
  obtain ⟨hkey, h⟩ := List.append_inj h rfl
  obtain ⟨hlen, h⟩ := List.append_inj h rfl
  have hlen := congrArg BitVec.toNat (wordBytes_injective hlen)
  rw [Record.len, Record.len, BitVec.toNat_ofNat, BitVec.toNat_ofNat, Nat.mod_eq_of_lt hr,
    Nat.mod_eq_of_lt hr'] at hlen
  obtain ⟨hdata, rfl⟩ := flatMap_wordBytes_injective hlen h
  obtain ⟨key, data⟩ := r
  obtain ⟨key', data'⟩ := r'
  obtain rfl : data = data' := hdata
  obtain rfl : key = key' := wordBytes_injective hkey
  exact ⟨rfl, rfl⟩

theorem lt_of_words {rs : List Record} {n : ℕ} (h : words rs < n) {r : Record} (hr : r ∈ rs) :
    r.data.length < n := by
  induction hr with
  | head rs =>
    rw [words_cons] at h
    omega
  | tail r' _ ih =>
    rw [words_cons] at h
    exact ih (by omega)

theorem flatMap_bytes_injective {rs rs' : List Record} (hlen : rs.length = rs'.length)
    (hw : words rs < 2 ^ 32) (hw' : words rs' < 2 ^ 32)
    (h : rs.flatMap Record.bytes = rs'.flatMap Record.bytes) : rs = rs' := by
  induction rs generalizing rs' with
  | nil => exact (List.length_eq_zero_iff.mp hlen.symm).symm
  | cons r rs ih =>
    cases rs' with
    | nil => cases hlen
    | cons r' rs' =>
      rw [List.flatMap_cons, List.flatMap_cons] at h
      obtain ⟨rfl, hrest⟩ := Record.bytes_injective (lt_of_words hw List.mem_cons_self)
        (lt_of_words hw' List.mem_cons_self) h
      rw [words_cons] at hw hw'
      rw [ih (Nat.succ.inj hlen) (by omega) (by omega) hrest]

theorem words_perm {rs rs' : List Record} (h : rs.Perm rs') : words rs = words rs' :=
  (h.map fun r : Record ↦ r.data.length).sum_nat

/-- Permutations of the same records make different files. -/
theorem fileBytes_injective {rs rs' : List Record} (hperm : rs.Perm rs') (hw : words rs < 2 ^ 32)
    (h : fileBytes rs = fileBytes rs') : rs = rs' := by
  have hwords := words_perm hperm
  obtain ⟨-, h⟩ := List.append_inj h rfl
  exact flatMap_bytes_injective hperm.length_eq hw (hwords ▸ hw) h

end CS537.Varsort
