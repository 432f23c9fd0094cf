import Mathlib.Data.Nat.Basic
import Mathlib.Data.List.Basic

/-!
# The input stream

The `FILE` that `readcommands` reads. `fgets` takes its bytes from a buffer, which `read` fills by
blocks. A child has a copy of the buffer and shares the offset of the open file with the shell. When
it ends with `exit`, the library moves the offset back over the bytes left in the copy, if the file
can seek: the shell, which still has them in its own buffer, then reads them again.

What the shell is going to read is a list of bytes, from which `fgets` takes its piece. The buffer
shows only when something is given back.
-/

namespace CS537.Mysh

abbrev Byte := UInt8

/-- `LSIZE`. -/
def lsize : ℕ := 513

def newline : Byte := 0x0A

/-! ## Reading from a list -/

/-- `fgets(commands, n + 1, fileno)`: the bytes it stores before the NUL, and the rest of the
input. -/
def readLine : ℕ → List Byte → List Byte × List Byte
  | 0, input => ([], input)
  | _ + 1, [] => ([], [])
  | n + 1, b :: input =>
    if b = newline then ([b], input)
    else
      let (line, rest) := readLine n input
      (b :: line, rest)

/-- `fgets(commands, LSIZE+1, fileno)`; `none` is the null pointer. -/
def fgets (input : List Byte) : Option (List Byte × List Byte) :=
  if input = [] then none else some (readLine lsize input)

/-! ## The stream -/

/-- `BUFSIZ`, the size of a block of the file. -/
def blksize : ℕ := 4096

/-- `buffer` has been read and not yet taken; `eof` is the end-of-file indicator. A pipe or a
terminal is not `seekable`. -/
structure Stream where
  file : List Byte
  seekable : Bool
  offset : ℕ
  buffer : List Byte
  eof : Bool
  deriving DecidableEq

/-- A file that has just been opened. -/
def fopen (seekable : Bool) (file : List Byte) : Stream := ⟨file, seekable, 0, [], false⟩

namespace Stream

variable (f : Stream)

/-- `read` when the buffer is empty. The end-of-file indicator stays set. -/
def underflow : Stream :=
  if f.buffer ≠ [] ∨ f.eof then f
  else
    let block := (f.file.drop f.offset).take blksize
    { f with
      offset := f.offset + block.length
      buffer := block
      eof := block.isEmpty }

def getc : Option Byte × Stream :=
  match f.underflow.buffer with
  | [] => (none, f.underflow)
  | b :: buffer => (some b, { f.underflow with buffer := buffer })

/-- At most `n` bytes, up to a newline. -/
def gets : ℕ → Stream → List Byte × Stream
  | 0, f => ([], f)
  | n + 1, f =>
    match f.getc with
    | (none, f) => ([], f)
    | (some b, f) =>
      if b = newline then ([b], f)
      else
        let (line, f) := gets n f
        (b :: line, f)

/-- `fgets(commands, LSIZE+1, fileno)`; `none` is the null pointer. -/
def fgets : Option (List Byte) × Stream :=
  match f.gets lsize with
  | ([], f) => (none, f)
  | (line, f) => (some line, f)

/-- `exit` in a child whose copy of the buffer has `n` bytes: `lseek(fd, -n, SEEK_CUR)`, which does
nothing if the file cannot seek or starts behind the new offset. -/
def giveBack (n : ℕ) : Stream :=
  if f.seekable ∧ n ≤ f.offset then { f with offset := f.offset - n } else f

/-- What is still to be read. -/
def unread : List Byte := f.buffer ++ if f.eof then [] else f.file.drop f.offset

/-! ## The stream as a list -/

variable {f}

theorem unread_underflow : f.underflow.unread = f.unread := by
  rw [underflow]
  split_ifs with h
  · rfl
  · obtain ⟨hbuffer, heof⟩ := not_or.mp h
    rw [not_not] at hbuffer
    rw [unread, unread, hbuffer, if_neg heof, List.nil_append]
    dsimp only
    split_ifs with hblock
    · -- the end of the file
      rw [List.append_nil, List.isEmpty_iff.mp hblock]
      rcases List.take_eq_nil_iff.mp (List.isEmpty_iff.mp hblock) with hzero | hnil
      · cases hzero
      · exact hnil.symm
    · have hdrop : f.file.drop (f.offset + ((f.file.drop f.offset).take blksize).length)
          = (f.file.drop f.offset).drop blksize := by
        rw [← List.drop_drop, List.length_take]
        rcases Nat.le_total blksize (f.file.drop f.offset).length with hle | hle
        · rw [Nat.min_eq_left hle]
        · rw [Nat.min_eq_right hle, List.drop_length, List.drop_eq_nil_of_le hle]
      rw [hdrop, List.take_append_drop]

theorem eof_of_buffer_nil (h : f.underflow.buffer = []) : f.underflow.eof = true := by
  rw [underflow] at h ⊢
  split_ifs at h ⊢ with hor
  · exact hor.resolve_left (not_not.mpr h)
  · exact List.isEmpty_iff.mpr h

theorem getc_spec : f.unread = f.getc.1.toList ++ f.getc.2.unread ∧
    (f.getc.1 = none → f.unread = []) := by
  rw [getc, ← unread_underflow]
  cases hbuffer : f.underflow.buffer with
  | nil =>
    have hnil : f.underflow.unread = [] := by
      rw [unread, hbuffer, eof_of_buffer_nil hbuffer]
      rfl
    exact ⟨rfl, fun _ ↦ hnil⟩
  | cons b buffer =>
    refine ⟨?_, nofun⟩
    rw [unread, hbuffer]
    rfl

theorem gets_eq (n : ℕ) (f : Stream) :
    (f.gets n).1 = (readLine n f.unread).1 ∧ (f.gets n).2.unread = (readLine n f.unread).2 := by
  induction n generalizing f with
  | zero => exact ⟨rfl, rfl⟩
  | succ n ih =>
    obtain ⟨hunread, hnone⟩ := getc_spec (f := f)
    rw [gets]
    rcases hget : f.getc with ⟨_ | b, g⟩
    · rw [hget] at hunread hnone
      rw [hnone rfl] at hunread ⊢
      exact ⟨rfl, hunread.symm⟩
    · rw [hget] at hunread
      rw [hunread]
      dsimp only [Option.toList]
      rw [List.singleton_append, readLine]
      split_ifs with hnew
      · exact ⟨rfl, rfl⟩
      · exact ⟨congrArg (b :: ·) (ih g).1, (ih g).2⟩

theorem seekable_getc (f : Stream) : f.getc.2.seekable = f.seekable := by
  have hunder : f.underflow.seekable = f.seekable := by
    rw [underflow]
    split_ifs
    · rfl
    · rfl
  rw [getc]
  split
  · exact hunder
  · exact hunder

theorem seekable_gets (n : ℕ) (f : Stream) : (f.gets n).2.seekable = f.seekable := by
  induction n generalizing f with
  | zero => rfl
  | succ n ih =>
    have hget := seekable_getc f
    rw [gets]
    rcases hg : f.getc with ⟨_ | b, g⟩
    · rwa [hg] at hget
    · rw [hg] at hget
      dsimp only
      split_ifs
      · exact hget
      · exact (ih g).trans hget

theorem seekable_fgets (f : Stream) : f.fgets.2.seekable = f.seekable := by
  have hgets := seekable_gets lsize f
  rw [fgets]
  rcases hg : f.gets lsize with ⟨_ | ⟨b, line⟩, g⟩
  · rwa [hg] at hgets
  · rwa [hg] at hgets

theorem seekable_giveBack (n : ℕ) (f : Stream) : (f.giveBack n).seekable = f.seekable := by
  rw [giveBack]
  split_ifs
  · rfl
  · rfl

theorem readLine_fst_eq_nil {n : ℕ} {input : List Byte} (h : (readLine (n + 1) input).1 = []) :
    input = [] := by
  cases input with
  | nil => rfl
  | cons b input =>
    rw [readLine] at h
    split at h
    · cases h
    · cases h

/-- **The buffer does not show**: `fgets` takes its piece from what is still to be read. -/
theorem fgets_cases (f : Stream) :
    (∃ g, f.fgets = (none, g) ∧ Mysh.fgets f.unread = none ∧ g.unread = []) ∨
      ∃ line g, f.fgets = (some line, g) ∧ Mysh.fgets f.unread = some (line, g.unread) := by
  obtain ⟨hline, hrest⟩ := gets_eq lsize f
  rw [fgets, Mysh.fgets]
  rcases hgets : f.gets lsize with ⟨_ | ⟨b, line⟩, g⟩
  · rw [hgets] at hline hrest
    have hnil : f.unread = [] := readLine_fst_eq_nil hline.symm
    refine .inl ⟨g, rfl, if_pos hnil, ?_⟩
    rw [hnil] at hrest
    exact hrest
  · rw [hgets] at hline hrest
    refine .inr ⟨b :: line, g, rfl, ?_⟩
    rw [if_neg fun hnil ↦ ?_]
    · exact congrArg some (Prod.ext hline.symm hrest.symm)
    · rw [hnil] at hline
      cases hline

/-- What is given back is read again: the bytes before the offset. -/
theorem unread_giveBack {n : ℕ} (hseek : f.seekable) (hn : n ≤ f.offset) (heof : f.eof = false) :
    (f.giveBack n).unread = f.buffer ++ (f.file.drop (f.offset - n)).take n
      ++ f.file.drop f.offset := by
  have hdrop : f.file.drop f.offset = (f.file.drop (f.offset - n)).drop n := by
    rw [List.drop_drop, Nat.sub_add_cancel hn]
  rw [giveBack, if_pos ⟨hseek, hn⟩, unread, if_neg (by rw [heof]; decide), List.append_assoc, hdrop,
    List.take_append_drop]

/-- Otherwise nothing changes in what is to be read. -/
theorem unread_giveBack_of_not {n : ℕ}
    (h : ¬(f.seekable ∧ f.eof = false ∧ 0 < n ∧ n ≤ f.offset)) :
    (f.giveBack n).unread = f.unread := by
  rw [giveBack]
  split_ifs with hseek
  · cases heof : f.eof with
    | true => simp only [unread, heof, if_true]
    | false =>
      have hzero : n = 0 := by
        by_contra hne
        exact h ⟨hseek.1, heof, Nat.pos_of_ne_zero hne, hseek.2⟩
      simp only [unread, heof, hzero, Nat.sub_zero]
  · rfl

end Stream

end CS537.Mysh
