import CS537.Shm.Exec
import CS537.Shm.Layout
import CS537.Shm.Syscall

/-!
# `read` and `write` on a regular file

`sys_read` and `sys_write` of `p3/p3b/xv6/kernel/sysfile.c`, `fileread` and `filewrite` of `file.c`,
and of `fs.c` the loops of `readi` and `writei` with `bmap` and `balloc`. The contents of the file
do not matter here: the trace of a call lists the pieces of user memory, by start and length, that
`memmove` stores to or loads from.

`argptr` takes the length as a signed number whose sum with the pointer may wrap; `readi` and
`writei` take it as unsigned and cut it down to the file. A negative length therefore passes the
check with any pointer that is accepted for some length, and the transfer is as long as the file
allows.
-/

open Finset Function

namespace CS537.Shm

/-! ## `balloc` and `bmap` -/

/-- `BSIZE`. -/
def bsize : ℕ := 512

/-- `NDIRECT` and `NINDIRECT`. -/
def ndirect : ℕ := 12

def nindirect : ℕ := 128

/-- The blocks of an inode: which entries of `addrs` and, if there is an indirect block, of that
block are set. `free` is how often `balloc` finds a block. -/
structure Blocks where
  direct : ℕ → Bool
  indirect : Option (ℕ → Bool)
  free : ℕ

def balloc (b : Blocks) : Except String Blocks :=
  if b.free = 0 then throw "balloc: out of blocks" else pure { b with free := b.free - 1 }

/-- The part of `bmap` that gets the indirect block. -/
def bmapIndirect (b : Blocks) : Except String (Blocks × (ℕ → Bool)) :=
  match b.indirect with
  | some a => pure (b, a)
  | none => do
    let b ← balloc b
    pure (b, fun _ ↦ false)

/-- `bmap(ip, bn)`. -/
def bmap (b : Blocks) (bn : ℕ) : Except String Blocks :=
  if bn < ndirect then
    if b.direct bn then pure b
    else do
      let b ← balloc b
      pure { b with direct := update b.direct bn true }
  else if bn - ndirect < nindirect then do
    let (b, a) ← bmapIndirect b
    if a (bn - ndirect) then pure { b with indirect := some a }
    else do
      let b ← balloc b
      pure { b with indirect := some (update a (bn - ndirect) true) }
  else throw "bmap: out of range"

/-- `bmap` on `n` blocks from `bn` on, one after the other. -/
def bmaps : ℕ → ℕ → Blocks → Except String Blocks
  | 0, _, b => pure b
  | n + 1, bn, b => do
    let b ← bmap b bn
    bmaps n (bn + 1) b

/-! ## `readi` and `writei` -/

/-- `writei(ip, src, off, n)` on a file of the given size: the length as cut down to the largest
file, `none` for -1. -/
def writei (size off n : ℕ) : Option ℕ :=
  if size < off ∨ (off + n) % 2 ^ 32 < off then none
  else if maxFileSize < (off + n) % 2 ^ 32 then some (sub32 maxFileSize off)
  else some n

/-- The common loop of `readi` and `writei` over `n` bytes: the pieces of user memory, and the
blocks afterwards. `bmap` panics before `off` or `addr` could wrap. -/
def copyBlocks (off addr n : ℕ) (b : Blocks) : List (ℕ × ℕ) × Except String Blocks :=
  if n = 0 then ([], pure b)
  else
    match bmap b (off / bsize) with
    | .error e => ([], throw e)
    | .ok b =>
      let m := min n (bsize - off % bsize)
      let (l, r) := copyBlocks (off + m) (addr + m) (n - m) b
      ((addr, m) :: l, r)
termination_by n
decreasing_by
  have hmod : off % bsize < bsize := Nat.mod_lt _ (by decide)
  omega

/-! ## `fileread` and `filewrite` -/

/-- An open regular file: the two mode flags and the offset of `struct file`, and of its inode the
size and the blocks. -/
structure OpenFile where
  readable : Bool
  writable : Bool
  off : ℕ
  size : ℕ
  blocks : Blocks

/-- `fileread(f, addr, n)`: the trace, the file afterwards and the returned value. -/
def fileread (f : OpenFile) (addr n : ℕ) : List (ℕ × ℕ) × Except String (OpenFile × ℤ) :=
  if f.readable = false then ([], pure (f, -1))
  else
    match readi f.size f.off n with
    | none => ([], pure (f, -1))
    | some len =>
      let (l, r) := copyBlocks f.off addr len f.blocks
      (l, r.map fun b ↦ ({ f with off := f.off + len, blocks := b }, (len : ℤ)))

/-- `filewrite(f, addr, n)`. -/
def filewrite (f : OpenFile) (addr n : ℕ) : List (ℕ × ℕ) × Except String (OpenFile × ℤ) :=
  if f.writable = false then ([], pure (f, -1))
  else
    match writei f.size f.off n with
    | none => ([], pure (f, -1))
    | some len =>
      let (l, r) := copyBlocks f.off addr len f.blocks
      (l, r.map fun b ↦
        ({ f with
            off := f.off + len
            size := if 0 < len then max f.size (f.off + len) else f.size
            blocks := b }, (len : ℤ)))

/-! ## `sys_read` and `sys_write` -/

/-- The call on the file that the descriptor names, which is updated. -/
def onFile (p : Proc) (u : User OpenFile)
    (call : OpenFile → ℕ → ℕ → List (ℕ × ℕ) × Except String (OpenFile × ℤ)) :
    List (ℕ × ℕ) × Except String (User OpenFile × ℤ) :=
  match rwArgs p u with
  | none => ([], pure (u, -1))
  | some (fd, f, a, n) =>
    let (l, r) := call f a n.toNat
    (l, r.map fun (f, ret) ↦ ({ u with ofile := update u.ofile fd (some f) }, ret))

def sysRead (p : Proc) (u : User OpenFile) :
    List (ℕ × ℕ) × Except String (User OpenFile × ℤ) :=
  onFile p u fileread

def sysWrite (p : Proc) (u : User OpenFile) :
    List (ℕ × ℕ) × Except String (User OpenFile × ℤ) :=
  onFile p u filewrite

/-! ## The pieces of a transfer -/

/-- `x` lies in one of the pieces. -/
def Touched (l : List (ℕ × ℕ)) (x : ℕ) : Prop :=
  ∃ piece ∈ l, piece.1 ≤ x ∧ x < piece.1 + piece.2

theorem not_touched_nil (x : ℕ) : ¬ Touched [] x := by
  rintro ⟨piece, h, -⟩
  cases h

theorem touched_cons {piece : ℕ × ℕ} {l : List (ℕ × ℕ)} {x : ℕ} :
    Touched (piece :: l) x ↔ (piece.1 ≤ x ∧ x < piece.1 + piece.2) ∨ Touched l x := by
  simp only [Touched, List.mem_cons, exists_eq_or_imp]

/-- How many of the `n` bytes from the offset `off` on lie in the first `i + 1` blocks of the
transfer. -/
def upTo (off n i : ℕ) : ℕ := min n ((i + 1) * bsize - off % bsize)

/-- The transfer gets to the block number `i` of its blocks: there are bytes to copy in it, and
`bmap` has a block for it and for those before. -/
def Gets (off n : ℕ) (b : Blocks) (i : ℕ) : Prop :=
  0 < n ∧ i * bsize < off % bsize + n ∧ ∃ b', bmaps (i + 1) (off / bsize) b = .ok b'

theorem upTo_succ {off n : ℕ} (h : bsize - off % bsize < n) (i : ℕ) :
    upTo off n (i + 1) = (bsize - off % bsize)
      + upTo (off + (bsize - off % bsize)) (n - (bsize - off % bsize)) i := by
  have hmod : off % bsize < bsize := Nat.mod_lt _ (by decide)
  have hnext : (off + (bsize - off % bsize)) % bsize = 0 := by
    simp only [bsize] at *
    omega
  rw [upTo, upTo, hnext]
  simp only [bsize] at *
  omega

theorem gets_succ {off n : ℕ} {b b₁ : Blocks} (h : bsize - off % bsize < n)
    (hb : bmap b (off / bsize) = .ok b₁) (i : ℕ) :
    Gets off n b (i + 1)
      ↔ Gets (off + (bsize - off % bsize)) (n - (bsize - off % bsize)) b₁ i := by
  have hmod : off % bsize < bsize := Nat.mod_lt _ (by decide)
  have hnext : (off + (bsize - off % bsize)) % bsize = 0 := by
    simp only [bsize] at *
    omega
  have hdiv : (off + (bsize - off % bsize)) / bsize = off / bsize + 1 := by
    simp only [bsize] at *
    omega
  have hrun : bmaps (i + 1 + 1) (off / bsize) b = bmaps (i + 1) (off / bsize + 1) b₁ := by
    rw [bmaps, hb]
    rfl
  rw [Gets, Gets, hnext, hdiv, hrun]
  refine and_congr ?_ (and_congr ?_ Iff.rfl)
  · omega
  · simp only [bsize] at *
    omega

/-- The pieces of the loop cover exactly the bytes up to the last block that it gets to. -/
theorem touched_copyBlocks (off addr n : ℕ) (b : Blocks) (x : ℕ) :
    Touched (copyBlocks off addr n b).1 x
      ↔ ∃ i, Gets off n b i ∧ addr ≤ x ∧ x < addr + upTo off n i := by
  induction n using Nat.strong_induction_on generalizing off addr b with
  | _ n ih =>
    have hmod : off % bsize < bsize := Nat.mod_lt _ (by decide)
    rw [copyBlocks]
    split_ifs with hn
    · refine iff_of_false (not_touched_nil x) ?_
      rintro ⟨i, ⟨hpos, -⟩, -⟩
      omega
    · cases hb : bmap b (off / bsize) with
      | error e =>
        refine iff_of_false (not_touched_nil x) ?_
        rintro ⟨i, ⟨-, -, b', hb'⟩, -⟩
        rw [bmaps, hb] at hb'
        cases hb'
      | ok b₁ =>
        have hfirst : Gets off n b 0 := by
          refine ⟨by omega, by omega, b₁, ?_⟩
          rw [bmaps, hb]
          rfl
        simp only
        rw [touched_cons]
        by_cases hlast : n ≤ bsize - off % bsize
        · -- the first block is the last
          rw [min_eq_left hlast, Nat.sub_self, copyBlocks, if_pos rfl]
          have hone : ∀ i, Gets off n b i → i = 0 := by
            rintro i ⟨-, hi, -⟩
            simp only [bsize] at *
            omega
          have hup : upTo off n 0 = n := by
            rw [upTo, zero_add, one_mul, min_eq_left hlast]
          constructor
          · rintro (h | h)
            · exact ⟨0, hfirst, h.1, by rw [hup]; exact h.2⟩
            · exact absurd h (not_touched_nil x)
          · rintro ⟨i, hi, h⟩
            obtain rfl := hone i hi
            rw [hup] at h
            exact .inl h
        · have hlt : bsize - off % bsize < n := not_le.mp hlast
          have hup : upTo off n 0 = bsize - off % bsize := by
            rw [upTo, zero_add, one_mul, min_eq_right hlt.le]
          rw [min_eq_right hlt.le, ih _ (by omega)]
          constructor
          · rintro (h | ⟨i, hi, h⟩)
            · exact ⟨0, hfirst, h.1, by rw [hup]; exact h.2⟩
            · refine ⟨i + 1, (gets_succ hlt hb i).mpr hi, by omega, ?_⟩
              rw [upTo_succ hlt]
              omega
          · rintro ⟨i, hi, h⟩
            by_cases hx : x < addr + (bsize - off % bsize)
            · exact .inl ⟨h.1, hx⟩
            cases i with
            | zero =>
              rw [hup] at h
              omega
            | succ i =>
              rw [upTo_succ hlt] at h
              exact .inr ⟨i, (gets_succ hlt hb i).mp hi, by omega, by omega⟩

end CS537.Shm
