import CS537.Varsort.Format
import Mathlib.Data.Int.Notation

/-!
# `varsort`

`p1/p1a/varsort.c` from the header of the input file to the end of the output, on a machine with
64-bit pointers. The input file is any sequence of bytes. `int` and `unsigned int` are words of 32
bits; the C library is given by what `malloc` returns and by `qsort`.

`read` transfers what there is, up to the size that is asked for. A buffer that is not mapped makes
it fail. `overrun` stands for an access outside of what `malloc` has returned.
-/

namespace CS537.Varsort

/-- `sizeof(rec_nodata_t)`, and `sizeof(rec_dataptr_t)`. -/
def recNodataSize : ℕ := 8

def recDataptrSize : ℕ := 16

/-- `data_ptr` is given as an index into `data`. -/
structure RecDataptr where
  key : BitVec 32
  dataInts : BitVec 32
  dataPtr : BitVec 32
  deriving DecidableEq

def compareDataptr (r1 r2 : RecDataptr) : ℤ := (r1.key - r2.key).toInt

/-- How the program ends before its time: with status 1, or with an access out of bounds. -/
inductive Stop
  | exit1
  | overrun
  deriving DecidableEq

/-! ## Memory -/

/-- What `malloc` returns: a number of bytes with some contents. -/
structure Block where
  size : ℕ
  byte : ℕ → Byte

namespace Block

variable (b : Block)

def load (off n : ℕ) : List Byte := (List.range n).map fun i ↦ b.byte (off + i)

def store (off : ℕ) (l : List Byte) : Block :=
  { b with byte := fun i ↦ if off ≤ i then (l[i - off]?).getD (b.byte i) else b.byte i }

end Block

/-- `(size_t) n` for an `int` n. -/
def sizeT (n : BitVec 32) : ℕ := (n.signExtend 64).toNat

/-- `malloc(n)`: none is NULL. The parameter says for which sizes it succeeds, and what the memory
contains then. -/
def alloc (malloc : ℕ → Option (ℕ → Byte)) (n : BitVec 32) : Option Block :=
  (malloc (sizeT n)).map fun byte ↦ ⟨sizeT n, byte⟩

/-! ## Reading and writing -/

/-- One `read` or `write` transfers no more bytes than that. -/
def maxTransfer : ℕ := 0x7FFFF000

/-- `read(fin, (char *) b + off, size)` and the check of its result. -/
def readInto (b : Option Block) (off : ℕ) (size : BitVec 32) (file : List Byte) :
    Except Stop (Option Block × List Byte) :=
  if size = 0 then pure (b, file)
  else if size.toInt < 0 then throw .exit1
  else
    match b with
    | none => throw .exit1
    | some b =>
      let l := file.take (min size.toNat maxTransfer)
      if b.size < off + l.length then throw .overrun
      else if l.length < size.toNat then throw .exit1
      else pure (some (b.store off l), file.drop size.toNat)

/-- `write(fout, (char *) b + off, size)` and the check of its result: what is written. -/
def writeFrom (b : Option Block) (off : ℕ) (size : BitVec 32) : Except Stop (List Byte) :=
  if size = 0 then pure []
  else if size.toInt < 0 then throw .exit1
  else
    match b with
    | none => throw .exit1
    | some b =>
      if b.size < off + min size.toNat maxTransfer then throw .overrun
      else if maxTransfer < size.toNat then throw .exit1
      else pure (b.load off size.toNat)

/-- While records are read: the rest of the file, the elements of `fullRecords` that have been
filled, and `data`. -/
structure Reading where
  file : List Byte
  fullRecords : List RecDataptr
  data : Option Block
  pos : BitVec 32

/-- The body of the first loop; `room` is the size of `fullRecords`. -/
def readRecord (room : Option ℕ) (st : Reading) : Except Stop Reading :=
  match room with
  | none => throw .exit1
  | some room =>
    let count := st.fullRecords.length
    let head := st.file.take recNodataSize
    if room < recDataptrSize * count + head.length then throw .overrun
    else if head.length < recNodataSize then throw .exit1
    -- the pointer is stored, too
    else if room < recDataptrSize * (count + 1) then throw .overrun
    else do
      let key := word (head.take intSize)
      let dataInts := word (head.drop intSize)
      let dataSize := dataInts * 4#32
      let (data, file) ← readInto st.data (intSize * st.pos.toNat) dataSize
        (st.file.drop recNodataSize)
      pure {
        file := file
        fullRecords := st.fullRecords ++ [⟨key, dataInts, st.pos⟩]
        data := data
        pos := st.pos + dataSize.sdiv 4#32 }

/-- The first loop, with `recordsLeft` records to go. -/
def readRecords (room : Option ℕ) : ℕ → Reading → Except Stop Reading
  | 0, st => pure st
  | recordsLeft + 1, st => do
    let st ← readRecord room st
    readRecords room recordsLeft st

/-- The second loop. -/
def writeRecords (data : Option Block) : List RecDataptr → Except Stop (List Byte)
  | [] => pure []
  | r :: rs => do
    let l ← writeFrom data (intSize * r.dataPtr.toNat) (r.dataInts * 4#32)
    let out ← writeRecords data rs
    pure (wordBytes r.key ++ wordBytes r.dataInts ++ l ++ out)

/-- `main` once both files are open: the output file. -/
def main (malloc : ℕ → Option (ℕ → Byte))
    (qsort : (RecDataptr → RecDataptr → ℤ) → List RecDataptr → List RecDataptr)
    (file : List Byte) : Except Stop (List Byte) :=
  let fileSize := BitVec.ofNat 32 file.length
  if file.length < intSize then throw .exit1
  else do
    let numRecords := word (file.take intSize)
    let dataSize := fileSize - 4#32 - 2#32 * numRecords * 4#32
    let fullRecords := alloc malloc (numRecords * 16#32)
    let data := alloc malloc (dataSize * 4#32)
    let st ← readRecords (fullRecords.map Block.size) numRecords.toNat
      ⟨file.drop intSize, [], data, 0⟩
    let out ← writeRecords st.data (qsort compareDataptr st.fullRecords)
    pure (wordBytes numRecords ++ out)

/-! ## Lemmas -/

namespace Block

variable (b : Block)

theorem length_load (off n : ℕ) : (b.load off n).length = n := by
  rw [load, List.length_map, List.length_range]

/-- What was stored is there. -/
theorem load_store (off : ℕ) (l : List Byte) : (b.store off l).load off l.length = l := by
  apply List.ext_getElem
  · exact length_load ..
  · intro i h1 h2
    simp only [load, store, List.getElem_map, List.getElem_range]
    rw [if_pos (Nat.le_add_right _ _), Nat.add_sub_cancel_left, List.getElem?_eq_getElem h2]
    rfl

/-- What lies below stays. -/
theorem load_store_of_le {off off' n : ℕ} (h : off' + n ≤ off) (l : List Byte) :
    (b.store off l).load off' n = b.load off' n := by
  rw [load, load, List.map_inj_left]
  intro i hi
  have hlt := List.mem_range.mp hi
  exact if_neg (by omega)

end Block

theorem sizeT_of_lt {n : BitVec 32} (h : n.toNat < 2 ^ 31) : sizeT n = n.toNat := by
  rw [sizeT, BitVec.signExtend_eq_setWidth_of_msb_false, BitVec.toNat_setWidth, Nat.mod_eq_of_lt]
  · omega
  · rw [BitVec.msb_eq_decide]
    simpa using h

theorem toInt_of_lt {n : BitVec 32} (h : n.toNat < 2 ^ 31) : n.toInt = n.toNat := by
  rw [BitVec.toInt_eq_toNat_cond, if_pos (by omega)]

end CS537.Varsort
