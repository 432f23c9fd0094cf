import CS537.Lib.Lines

/-!
# The buffered reader of the web server

The Rio package of `p4a/cs537.c`, as far as a request uses it. A connection is what the calls of
`read` will return: some bytes, or -1 with `EINTR`; after that the client has closed its side, and
every call returns 0. `rio_readlineb` sees only the bytes one after the other, wherever `read` has
cut them, and at the end of the stream it leaves the array of its caller as it is.
-/

namespace CS537.Pool

open Lines

abbrev Byte := UInt8

/-- `RIO_BUFSIZE`. -/
def rioBufsize : ℕ := 8192

def newline : Byte := 0x0A

/-- What a call of `read` stores in `rio_buf`. -/
structure Chunk where
  bytes : List Byte
  pos : 0 < bytes.length
  le : bytes.length ≤ rioBufsize

/-- `rio_t`: what is left of `rio_buf`, and the connection; `none` is an interrupted call. -/
structure Rio where
  buf : List Byte
  fd : List (Option Chunk)

/-- The loop in `rio_read` that refills the buffer; nothing in it means the end of the stream. -/
def refill : List (Option Chunk) → List Byte × List (Option Chunk)
  | [] => ([], [])
  | none :: fd => refill fd
  | some c :: fd => (c.bytes, fd)

/-- `rio_read(rp, usrbuf, n)`: the bytes it copies. -/
def rioRead (n : ℕ) (rp : Rio) : List Byte × Rio :=
  let (buf, fd) := if rp.buf = [] then refill rp.fd else (rp.buf, rp.fd)
  (buf.take n, ⟨buf.drop n, fd⟩)

/-- The loop of `rio_readlineb`, with so many rounds to go and these bytes in `usrbuf`. -/
def readlineLoop : ℕ → List Byte → Rio → List Byte × Rio
  | 0, line, rp => (line, rp)
  | n + 1, line, rp =>
    match rioRead 1 rp with
    | (c :: _, rp) =>
      if c = newline then (line ++ [c], rp) else readlineLoop n (line ++ [c]) rp
    | ([], rp) => (line, rp)

/-- `rio_readlineb(rp, usrbuf, maxlen)`: what stands in `usrbuf` before the NUL. If no byte is left
nothing is written. -/
def rioReadlineb (maxlen : ℕ) (usrbuf : List Byte) (rp : Rio) : List Byte × Rio :=
  let (line, rp) := readlineLoop (maxlen - 1) [] rp
  if line = [] then (usrbuf, rp) else (line, rp)

/-! ## The stream -/

/-- The bytes that are still to be read. -/
def stream (fd : List (Option Chunk)) : List Byte :=
  fd.flatMap fun c ↦ (c.map Chunk.bytes).getD []

def Rio.stream (rp : Rio) : List Byte := rp.buf ++ Pool.stream rp.fd

variable {rp : Rio} {fd : List (Option Chunk)}

theorem refill_spec (fd : List (Option Chunk)) :
    (refill fd).1 ++ stream (refill fd).2 = stream fd ∧ ((refill fd).1 = [] → stream fd = []) := by
  induction fd with
  | nil => exact ⟨rfl, fun _ ↦ rfl⟩
  | cons c fd ih =>
    cases c with
    | none => exact ih
    | some c =>
      have hne : c.bytes ≠ [] := List.length_pos_iff.mp c.pos
      exact ⟨rfl, fun h ↦ absurd h hne⟩

/-- **`rio_read`** of one byte takes the first byte of the stream, if there is one. -/
theorem rioRead_one (rp : Rio) :
    (rioRead 1 rp).1 = rp.stream.take 1 ∧ (rioRead 1 rp).2.stream = rp.stream.drop 1 := by
  -- the buffer after the refill
  obtain ⟨buf, fd, heq, hstream, hend⟩ : ∃ buf fd, rioRead 1 rp = (buf.take 1, ⟨buf.drop 1, fd⟩) ∧
      rp.stream = buf ++ stream fd ∧ (buf = [] → stream fd = []) := by
    by_cases hbuf : rp.buf = []
    · obtain ⟨happ, hnil⟩ := refill_spec rp.fd
      refine ⟨(refill rp.fd).1, (refill rp.fd).2, ?_, ?_, fun h ↦ ?_⟩
      · rw [rioRead, if_pos hbuf]
      · rw [Rio.stream, hbuf, List.nil_append, happ]
      · have hall := hnil h
        rw [← happ, h] at hall
        exact hall
    · exact ⟨rp.buf, rp.fd, by rw [rioRead, if_neg hbuf], rfl, fun h ↦ absurd h hbuf⟩
  rw [heq, hstream]
  cases buf with
  | nil =>
    rw [hend rfl]
    exact ⟨rfl, hend rfl⟩
  | cons b buf => exact ⟨rfl, rfl⟩

/-- The loop takes a line. -/
theorem readlineLoop_spec (n : ℕ) (line : List Byte) (rp : Rio) :
    (readlineLoop n line rp).1 = line ++ (takeLine newline n rp.stream).1 ∧
      (readlineLoop n line rp).2.stream = (takeLine newline n rp.stream).2 := by
  induction n generalizing line rp with
  | zero => exact ⟨(List.append_nil line).symm, rfl⟩
  | succ n ih =>
    obtain ⟨hread, hrest⟩ := rioRead_one rp
    rw [readlineLoop]
    generalize rioRead 1 rp = r at hread hrest
    obtain ⟨bs, rp'⟩ := r
    cases hs : rp.stream with
    | nil =>
      rw [hs] at hread hrest
      obtain rfl : bs = [] := hread
      exact ⟨(List.append_nil line).symm, hrest⟩
    | cons c s =>
      rw [hs] at hread hrest
      obtain rfl : bs = [c] := hread
      have hrest' : rp'.stream = s := hrest
      rw [takeLine]
      simp only
      split_ifs with hc
      · rw [hc]
        exact ⟨rfl, hrest'⟩
      · obtain ⟨hline, hstream⟩ := ih (line ++ [c]) rp'
        rw [hrest', List.append_assoc] at hline
        rw [hrest'] at hstream
        exact ⟨hline, hstream⟩

/-- **`rio_readlineb`** reads the next line of the stream. -/
theorem rioReadlineb_of_ne_nil {n : ℕ} (usrbuf : List Byte) (h : rp.stream ≠ []) :
    (rioReadlineb (n + 2) usrbuf rp).1 = (takeLine newline (n + 1) rp.stream).1 ∧
      (rioReadlineb (n + 2) usrbuf rp).2.stream = (takeLine newline (n + 1) rp.stream).2 := by
  obtain ⟨hline, hstream⟩ := readlineLoop_spec (n + 1) [] rp
  have hne : (readlineLoop (n + 1) [] rp).1 ≠ [] := by
    rw [hline]
    exact takeLine_ne_nil newline h
  have heq : rioReadlineb (n + 2) usrbuf rp = readlineLoop (n + 1) [] rp := if_neg hne
  rw [heq]
  exact ⟨hline, hstream⟩

/-- At the end of the stream it changes nothing. -/
theorem rioReadlineb_of_nil (maxlen : ℕ) (usrbuf : List Byte) (h : rp.stream = []) :
    (rioReadlineb maxlen usrbuf rp).1 = usrbuf ∧ (rioReadlineb maxlen usrbuf rp).2.stream = [] := by
  obtain ⟨hline, hstream⟩ := readlineLoop_spec (maxlen - 1) [] rp
  have hnil : takeLine newline (maxlen - 1) [] = ([], []) := by
    cases maxlen - 1 with
    | zero => rfl
    | succ n => rfl
  rw [h, hnil] at hline hstream
  have heq : rioReadlineb maxlen usrbuf rp = (usrbuf, (readlineLoop (maxlen - 1) [] rp).2) :=
    if_pos hline
  rw [heq]
  exact ⟨rfl, hstream⟩

/-- A call takes the next line, or finds none and changes nothing. -/
theorem rioReadlineb_cases (n : ℕ) (usrbuf : List Byte) (rp : Rio) :
    ∃ line rp', rioReadlineb (n + 2) usrbuf rp = (line, rp') ∧
      (lines newline n rp.stream = [] ∧ line = usrbuf ∧ lines newline n rp'.stream = [] ∨
        lines newline n rp.stream = line :: lines newline n rp'.stream ∧
          line = (takeLine newline (n + 1) rp.stream).1) := by
  by_cases hs : rp.stream = []
  · obtain ⟨hsame, hnil⟩ := rioReadlineb_of_nil (n + 2) usrbuf hs
    refine ⟨(rioReadlineb (n + 2) usrbuf rp).1, (rioReadlineb (n + 2) usrbuf rp).2, rfl,
      Or.inl ⟨?_, hsame, ?_⟩⟩
    · rw [hs, lines_nil]
    · rw [hnil, lines_nil]
  · obtain ⟨hline, hstream⟩ := rioReadlineb_of_ne_nil (n := n) usrbuf hs
    refine ⟨(rioReadlineb (n + 2) usrbuf rp).1, (rioReadlineb (n + 2) usrbuf rp).2, rfl,
      Or.inr ⟨?_, hline⟩⟩
    rw [hline, hstream, lines_of_ne_nil hs]

end CS537.Pool
