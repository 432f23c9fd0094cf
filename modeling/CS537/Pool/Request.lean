import CS537.Lib.Strings
import CS537.Lib.Words
import CS537.Pool.Rio

/-!
# One request

`p4a/request.c` from the first read to the return into `workerthread`. The calls of the operating
system are parameters; an error in one of them ends the server through `unix_error`. The arrays on
the stack that nobody has written hold any strings. `sprintf(body, "%s...", body)` appends, as it
does in the C library.

The loop over the headers is the only one that may not end, and runs on fuel. What the server prints
and sends is left out, save that it must fit into the arrays.
-/

namespace CS537.Pool

open Lines Strings Words

/-- `MAXLINE`, and `MAXBUF`. -/
def maxLine : ℕ := 8192

def maxBuf : ℕ := 8192

/-- Why a request does not go back to its worker: the server exits, a store is out of bounds, or a
call never returns. -/
inductive Stop
  | exit
  | overrun
  | blocked
  deriving DecidableEq

/-- `struct stat`: `S_ISREG`, `S_IRUSR`, `S_IXUSR`, and `st_size` as an `int`. -/
structure Stat where
  isReg : Bool
  rusr : Bool
  xusr : Bool
  size : BitVec 32

/-- The calls of the request. `writen n` is its `n`-th `Rio_writen`; `mmap` fails for an empty
file. -/
structure Env where
  stat : List Byte → Option Stat
  writen : ℕ → Except Stop Unit
  openFile : Except Stop Unit
  mmap : Except Stop Unit
  close : Except Stop Unit
  munmap : Except Stop Unit
  fork : Except Stop Unit
  wait : Except Stop Unit

/-- What is in the arrays when `requestHandle` is called: its `buf`, `method` and `uri`, and the
`buf` of `requestReadhdrs`. -/
structure Stale where
  buf : List Byte
  method : List Byte
  uri : List Byte
  hdrs : List Byte

/-! ## Strings -/

/-- The string that an array holds. -/
def cstr (a : List Byte) : List Byte := a.takeWhile (· ≠ 0)

def isSpace (b : Byte) : Bool := b = 0x20 ∨ 0x09 ≤ b ∧ b ≤ 0x0D

/-- `sscanf(buf, "%s %s %s", method, uri, version)`: `method` and `uri`. -/
def sscanf (buf : List Byte) (stale : Stale) : List Byte × List Byte :=
  match words isSpace (cstr buf) with
  | [] => (cstr stale.method, cstr stale.uri)
  | [method] => (method, cstr stale.uri)
  | method :: uri :: _ => (method, uri)

def toLower (b : Byte) : Byte := if 0x41 ≤ b ∧ b ≤ 0x5A then b + 0x20 else b

/-- `strcasecmp(method, "GET") == 0`. -/
def IsGet (method : List Byte) : Prop := method.map toLower = ascii "get"

instance (method : List Byte) : Decidable (IsGet method) := inferInstanceAs (Decidable (_ = _))

/-- `sprintf` into an array of this size. -/
def sprintf (size : ℕ) (text : List Byte) : Except Stop (List Byte) :=
  if text.length < size then pure text else throw .overrun

/-! ## The answers -/

/-- The fixed arguments of `requestError`. -/
structure Page where
  errnum : String
  shortmsg : String
  longmsg : String

def notImplemented : Page :=
  ⟨"501", "Not Implemented", "CS537 Server does not implement this method"⟩

def notFound : Page := ⟨"404", "Not found", "CS537 Server could not find this file"⟩

def notReadable : Page := ⟨"403", "Forbidden", "CS537 Server could not read this file"⟩

def notRunnable : Page := ⟨"403", "Forbidden", "CS537 Server could not run this CGI program"⟩

def crlf : List Byte := [0x0D, newline]

variable (env : Env)

def requestError (page : Page) (cause : List Byte) : Except Stop Unit := do
  let body ← sprintf maxBuf (ascii "<html><title>CS537 Error</title>")
  let body ← sprintf maxBuf (body ++ ascii "<body bgcolor=fffff>" ++ crlf)
  let body ← sprintf maxBuf (body ++ ascii page.errnum ++ ascii ": " ++ ascii page.shortmsg ++ crlf)
  let body ← sprintf maxBuf (body ++ ascii "<p>" ++ ascii page.longmsg ++ ascii ": " ++ cause ++
    crlf)
  let body ← sprintf maxBuf (body ++ ascii "<hr>CS537 Web Server" ++ crlf)
  let _ ← sprintf maxLine (ascii "HTTP/1.0 " ++ ascii page.errnum ++ ascii " " ++
    ascii page.shortmsg ++ crlf)
  env.writen 0
  let _ ← sprintf maxLine (ascii "Content-Type: text/html" ++ crlf)
  env.writen 1
  let _ ← sprintf maxLine (ascii "Content-Length: " ++ decimal body.length ++ crlf ++ crlf)
  env.writen 2
  env.writen 3

/-- `!strstr(uri, "cgi")`. -/
def Static (uri : List Byte) : Prop := ¬ascii "cgi" <:+: uri

instance (uri : List Byte) : Decidable (Static uri) := inferInstanceAs (Decidable (¬_))

def slash : Byte := 0x2F

def questionMark : Byte := 0x3F

/-- `requestParseURI`: `filename`, with `cgiargs` beside it. `uri[-1]` is out of bounds, too. -/
def requestParseURI (uri : List Byte) : Except Stop (List Byte × List Byte) :=
  if Static uri then do
    let filename ← sprintf maxLine (ascii "." ++ uri)
    match uri.getLast? with
    | none => throw .overrun
    | some c =>
      if c = slash then
        let filename ← sprintf maxLine (filename ++ ascii "home.html")
        pure (filename, [])
      else pure (filename, [])
  else do
    let cgiargs ← sprintf maxLine (uri.dropWhile (· ≠ questionMark)).tail
    let filename ← sprintf maxLine (ascii "." ++ uri.takeWhile (· ≠ questionMark))
    pure (filename, cgiargs)

def requestGetFiletype (filename : List Byte) : List Byte :=
  if ascii ".html" <:+: filename then ascii "text/html"
  else if ascii ".gif" <:+: filename then ascii "image/gif"
  else if ascii ".jpg" <:+: filename then ascii "image/jpeg"
  else ascii "text/plain"

def requestServeDynamic : Except Stop Unit := do
  let buf ← sprintf maxLine (ascii "HTTP/1.0 200 OK" ++ crlf)
  let _ ← sprintf maxLine (buf ++ ascii "Server: CS537 Web Server" ++ crlf)
  env.writen 0
  env.fork
  env.wait

def requestServeStatic (filename : List Byte) (filesize : BitVec 32) : Except Stop Unit := do
  let filetype ← sprintf maxLine (requestGetFiletype filename)
  env.openFile
  env.mmap
  env.close
  let buf ← sprintf maxBuf (ascii "HTTP/1.0 200 OK" ++ crlf)
  let buf ← sprintf maxBuf (buf ++ ascii "Server: CS537 Web Server" ++ crlf)
  let buf ← sprintf maxBuf (buf ++ ascii "Content-Length: " ++ signed filesize ++ crlf)
  let _ ← sprintf maxBuf (buf ++ ascii "Content-Type: " ++ filetype ++ crlf ++ crlf)
  env.writen 0
  env.writen 1
  env.munmap

/-! ## The request -/

/-- The loop of `requestReadhdrs`, for at most so many tests. -/
def readhdrsLoop : ℕ → List Byte → Rio → Option Rio
  | 0, _, _ => none
  | n + 1, buf, rp =>
    if cstr buf = crlf then some rp
    else
      let (buf, rp) := rioReadlineb maxLine buf rp
      readhdrsLoop n buf rp

def requestReadhdrs (fuel : ℕ) (buf : List Byte) (rp : Rio) : Option Rio :=
  let (buf, rp) := rioReadlineb maxLine buf rp
  readhdrsLoop fuel buf rp

/-- `requestHandle` behind the headers. -/
def serve (uri : List Byte) : Except Stop Unit := do
  let (filename, _) ← requestParseURI uri
  match env.stat filename with
  | none => requestError env notFound filename
  | some sbuf =>
    if Static uri then
      if sbuf.isReg = false ∨ sbuf.rusr = false then requestError env notReadable filename
      else requestServeStatic env filename sbuf.size
    else
      if sbuf.isReg = false ∨ sbuf.xusr = false then requestError env notRunnable filename
      else requestServeDynamic env

/-- `requestHandle` on a connection; `none` when the fuel does not last for the headers. -/
def requestHandle (fuel : ℕ) (stale : Stale) (fd : List (Option Chunk)) :
    Option (Except Stop Unit) :=
  let (buf, rp) := rioReadlineb maxLine stale.buf ⟨[], fd⟩
  let (method, uri) := sscanf buf stale
  if IsGet method then (requestReadhdrs fuel stale.hdrs rp).map fun _ ↦ serve env uri
  else some (requestError env notImplemented method)

/-- `requestHandle` returns to `workerthread` after finitely many reads. -/
def Returns (stale : Stale) (fd : List (Option Chunk)) : Prop :=
  ∃ fuel, requestHandle env fuel stale fd = some (.ok ())

/-! ## When a request returns -/

/-- The page of an error without its cause. -/
def Page.overhead (page : Page) : ℕ :=
  87 + page.errnum.length + page.shortmsg.length + page.longmsg.length

/-- The error page fits into `body`, and the client takes it. -/
def Answered (page : Page) (cause : List Byte) : Prop :=
  cause.length + page.overhead < maxBuf ∧ ∀ i < 4, env.writen i = .ok ()

/-- The name of the file. -/
def fileOf (uri : List Byte) : List Byte :=
  if Static uri then
    ascii "." ++ uri ++ if uri.getLast? = some slash then ascii "home.html" else []
  else ascii "." ++ uri.takeWhile (· ≠ questionMark)

/-- The parts of the uri fit into `filename` and `cgiargs`. -/
def Named (uri : List Byte) : Prop :=
  (fileOf uri).length < maxLine ∧
    if Static uri then uri ≠ []
    else (uri.dropWhile (· ≠ questionMark)).tail.length < maxLine

/-- The server finds an answer to the uri, and all calls for it succeed. -/
def Served (uri : List Byte) : Prop :=
  Named uri ∧
    match env.stat (fileOf uri) with
    | none => Answered env notFound (fileOf uri)
    | some sbuf =>
      if Static uri then
        if sbuf.isReg = false ∨ sbuf.rusr = false then Answered env notReadable (fileOf uri)
        else env.openFile = .ok () ∧ env.mmap = .ok () ∧ env.close = .ok () ∧
          env.writen 0 = .ok () ∧ env.writen 1 = .ok () ∧ env.munmap = .ok ()
      else
        if sbuf.isReg = false ∨ sbuf.xusr = false then Answered env notRunnable (fileOf uri)
        else env.writen 0 = .ok () ∧ env.fork = .ok () ∧ env.wait = .ok ()

/-- The lines of a stream as the server reads them. -/
def requestLines (bytes : List Byte) : List (List Byte) := lines newline (maxLine - 2) bytes

/-- The lines behind the first one have an empty one among them. Without any such lines the array
for them decides. -/
def HeadersEnd (stale : Stale) (ls : List (List Byte)) : Prop :=
  crlf ∈ ls ∨ ls = [] ∧ cstr stale.hdrs = crlf

/-- The request gets an answer. -/
def Answerable (stale : Stale) (bytes : List Byte) : Prop :=
  let ls := requestLines bytes
  let (method, uri) := sscanf (ls.head?.getD stale.buf) stale
  if IsGet method then HeadersEnd stale ls.tail ∧ Served env uri
  else Answered env notImplemented method

/-! ## The headers -/

variable {rp : Rio} {stale : Stale}

/-- An empty line is read as one. -/
theorem cstr_line_iff {n : ℕ} {bytes : List Byte} :
    cstr (takeLine newline n bytes).1 = crlf ↔ (takeLine newline n bytes).1 = crlf := by
  constructor
  · intro h
    have hpre : crlf <+: (takeLine newline n bytes).1 := h ▸ List.takeWhile_prefix _
    obtain ⟨l', hl'⟩ := hpre
    have hnil : l' = [] := eq_of_takeLine (l := [0x0D]) hl'.symm
    rw [hnil, List.append_nil] at hl'
    exact hl'.symm
  · intro h
    rw [h]
    rfl

/-- `Rio_readlineb` in the request: the next line, or nothing. -/
theorem readline_cases (buf : List Byte) (rp : Rio) :
    ∃ buf' rp', rioReadlineb maxLine buf rp = (buf', rp') ∧
      (requestLines rp.stream = [] ∧ buf' = buf ∧ requestLines rp'.stream = [] ∨
        requestLines rp.stream = buf' :: requestLines rp'.stream ∧
          (cstr buf' = crlf ↔ buf' = crlf)) := by
  have hsize : maxLine - 2 + 2 = maxLine := rfl
  obtain ⟨buf', rp', heq, hcases⟩ := rioReadlineb_cases (maxLine - 2) buf rp
  rw [hsize] at heq
  refine ⟨buf', rp', heq, hcases.imp id fun ⟨hlines, hline⟩ ↦ ⟨hlines, ?_⟩⟩
  rw [hline]
  exact cstr_line_iff

theorem readhdrsLoop_of_some {n : ℕ} {buf : List Byte} (h : (readhdrsLoop n buf rp).isSome) :
    cstr buf = crlf ∨ crlf ∈ requestLines rp.stream := by
  induction n generalizing buf rp with
  | zero => cases h
  | succ n ih =>
    rw [readhdrsLoop] at h
    by_cases hbuf : cstr buf = crlf
    · exact Or.inl hbuf
    rw [if_neg hbuf] at h
    obtain ⟨buf', rp', heq, ⟨-, rfl, hnil⟩ | ⟨hlines, hempty⟩⟩ := readline_cases buf rp
    · -- at the end of the stream the array stays as it is
      rw [heq] at h
      have hrest := ih h
      rw [hnil] at hrest
      exact absurd (hrest.resolve_left hbuf) List.not_mem_nil
    · rw [heq] at h
      rw [hlines]
      rcases ih h with hline | hmem
      · exact Or.inr (hempty.mp hline ▸ List.mem_cons_self)
      · exact Or.inr (List.mem_cons_of_mem _ hmem)

theorem exists_readhdrsLoop {ls : List (List Byte)} {buf : List Byte}
    (hls : requestLines rp.stream = ls) (h : cstr buf = crlf ∨ crlf ∈ ls) :
    ∃ n, (readhdrsLoop n buf rp).isSome := by
  induction ls generalizing buf rp with
  | nil =>
    refine ⟨1, ?_⟩
    rw [readhdrsLoop, if_pos (h.resolve_right List.not_mem_nil)]
    rfl
  | cons l ls ih =>
    by_cases hbuf : cstr buf = crlf
    · refine ⟨1, ?_⟩
      rw [readhdrsLoop, if_pos hbuf]
      rfl
    obtain ⟨buf', rp', heq, ⟨hnil, -⟩ | ⟨hlines, hempty⟩⟩ := readline_cases buf rp
    · exact absurd (hls.symm.trans hnil) (List.cons_ne_nil l ls)
    · obtain ⟨rfl, hrest⟩ := List.cons.inj (hls.symm.trans hlines)
      have hnext : cstr l = crlf ∨ crlf ∈ ls := by
        rcases List.mem_cons.mp (h.resolve_left hbuf) with hl | hl
        · exact Or.inl (hempty.mpr hl.symm)
        · exact Or.inr hl
      obtain ⟨n, hn⟩ := ih hrest.symm hnext
      refine ⟨n + 1, ?_⟩
      rw [readhdrsLoop, if_neg hbuf, heq]
      exact hn

/-- **`requestReadhdrs`** returns if and only if the headers end. -/
theorem requestReadhdrs_iff (stale : Stale) (rp : Rio) :
    (∃ n, (requestReadhdrs n stale.hdrs rp).isSome) ↔
      HeadersEnd stale (requestLines rp.stream) := by
  obtain ⟨buf', rp', heq, ⟨hnil, rfl, hnil'⟩ | ⟨hlines, hempty⟩⟩ := readline_cases stale.hdrs rp
  · have hiff : (∃ n, (readhdrsLoop n stale.hdrs rp').isSome) ↔ cstr stale.hdrs = crlf := by
      refine ⟨fun ⟨n, hn⟩ ↦ ?_, fun h ↦ exists_readhdrsLoop rfl (Or.inl h)⟩
      have h := readhdrsLoop_of_some hn
      rw [hnil'] at h
      exact h.resolve_right List.not_mem_nil
    simp only [requestReadhdrs, heq]
    rw [hiff, HeadersEnd, hnil]
    simp
  · have hiff : (∃ n, (readhdrsLoop n buf' rp').isSome) ↔
        crlf ∈ buf' :: requestLines rp'.stream := by
      rw [List.mem_cons, eq_comm, ← hempty]
      exact ⟨fun ⟨n, hn⟩ ↦ readhdrsLoop_of_some hn, exists_readhdrsLoop rfl⟩
    simp only [requestReadhdrs, heq]
    rw [hiff, HeadersEnd, hlines]
    simp

/-! ## The answers that fit -/

theorem bind_ok_iff {α β : Type} {x : Except Stop α} {f : α → Except Stop β} {b : β} :
    (x >>= f) = .ok b ↔ ∃ a, x = .ok a ∧ f a = .ok b := by
  cases x with
  | error e => exact ⟨fun h ↦ (nomatch h), fun ⟨_, h, _⟩ ↦ (nomatch h)⟩
  | ok a => exact ⟨fun h ↦ ⟨a, rfl, h⟩, fun ⟨_, rfl, h⟩ ↦ h⟩

theorem call_ok_iff {α : Type} {x : Except Stop Unit} {f : Unit → Except Stop α} {a : α} :
    (x >>= f) = .ok a ↔ x = .ok () ∧ f () = .ok a :=
  bind_ok_iff.trans ⟨fun ⟨_, h⟩ ↦ h, fun h ↦ ⟨(), h⟩⟩

theorem sprintf_ok_iff {α : Type} {size : ℕ} {text : List Byte} {f : List Byte → Except Stop α}
    {a : α} : (sprintf size text >>= f) = .ok a ↔ text.length < size ∧ f text = .ok a := by
  rw [sprintf]
  split_ifs with h
  · exact (and_iff_right h).symm
  · exact ⟨fun h' ↦ (nomatch h'), fun h' ↦ absurd h'.1 h⟩

theorem length_ascii (s : String) : (ascii s).length = s.length := List.length_map _

/-- **`requestError`** returns if and only if the page is answered. -/
theorem requestError_iff (page : Page) (cause : List Byte) :
    requestError env page cause = .ok () ↔ Answered env page cause := by
  have h1 : (ascii "<html><title>CS537 Error</title>").length = 32 := rfl
  have h2 : (ascii "<body bgcolor=fffff>").length = 20 := rfl
  have h3 : (ascii ": ").length = 2 := rfl
  have h4 : (ascii "<p>").length = 3 := rfl
  have h5 : (ascii "<hr>CS537 Web Server").length = 20 := rfl
  have h6 : (ascii "HTTP/1.0 ").length = 9 := rfl
  have h7 : (ascii " ").length = 1 := rfl
  have h8 : (ascii "Content-Type: text/html").length = 23 := rfl
  have h9 : (ascii "Content-Length: ").length = 16 := rfl
  have hcrlf : crlf.length = 2 := rfl
  have hbuf : maxBuf = 8192 := rfl
  have hline : maxLine = 8192 := rfl
  simp only [requestError, sprintf_ok_iff, call_ok_iff, Answered, Page.overhead, List.length_append,
    length_ascii page.errnum, length_ascii page.shortmsg, length_ascii page.longmsg, h1, h2, h3, h4,
    h5, h6, h7, h8, h9, hcrlf, hbuf, hline]
  constructor
  · rintro ⟨-, -, -, -, hfit, -, hw0, -, hw1, -, hw2, hw3⟩
    refine ⟨by omega, fun i hi ↦ ?_⟩
    match i, hi with
    | 0, _ => exact hw0
    | 1, _ => exact hw1
    | 2, _ => exact hw2
    | 3, _ => exact hw3
  · rintro ⟨hfit, hw⟩
    refine ⟨by omega, by omega, by omega, by omega, by omega, by omega, hw 0 (by decide), by omega,
      hw 1 (by decide), ?_, hw 2 (by decide), hw 3 (by decide)⟩
    -- the length of the body has at most four digits
    have hdigits : ∀ len < 8192, 16 + (decimal len).length + 2 + 2 < 8192 := by
      intro len hlen
      have hle := length_decimal_le (k := 3) (hlen.trans (by decide))
      omega
    exact hdigits _ (by omega)

/-- **`requestParseURI`** finds the name of the file if and only if the uri fits. -/
theorem requestParseURI_iff (uri filename : List Byte) :
    (∃ cgiargs, requestParseURI uri = .ok (filename, cgiargs)) ↔
      Named uri ∧ filename = fileOf uri := by
  by_cases hs : Static uri
  · rw [requestParseURI, if_pos hs, Named, fileOf, if_pos hs, if_pos hs]
    cases hlast : uri.getLast? with
    | none =>
      have hnil : uri = [] := List.getLast?_eq_none_iff.mp hlast
      simp only [sprintf_ok_iff, hnil]
      exact ⟨fun ⟨_, _, h⟩ ↦ (nomatch h), fun h ↦ absurd rfl h.1.2⟩
    | some c =>
      have hne : uri ≠ [] := fun h ↦ nomatch (h ▸ hlast : [].getLast? = some c)
      by_cases hc : c = slash
      · rw [if_pos (congrArg some hc)]
        simp only [sprintf_ok_iff, if_pos hc]
        constructor
        · rintro ⟨_, -, hlen, heq⟩
          cases heq
          exact ⟨⟨hlen, hne⟩, rfl⟩
        · rintro ⟨⟨hlen, -⟩, rfl⟩
          refine ⟨[], lt_of_le_of_lt ?_ hlen, hlen, rfl⟩
          exact (List.prefix_append (ascii "." ++ uri) (ascii "home.html")).length_le
      · rw [if_neg fun h ↦ hc (Option.some.inj h), List.append_nil]
        simp only [sprintf_ok_iff, if_neg hc]
        constructor
        · rintro ⟨_, hlen, heq⟩
          cases heq
          exact ⟨⟨hlen, hne⟩, rfl⟩
        · rintro ⟨⟨hlen, -⟩, rfl⟩
          exact ⟨[], hlen, rfl⟩
  · rw [requestParseURI, if_neg hs, Named, fileOf, if_neg hs, if_neg hs]
    simp only [sprintf_ok_iff]
    constructor
    · rintro ⟨_, hargs, hlen, heq⟩
      cases heq
      exact ⟨⟨hlen, hargs⟩, rfl⟩
    · rintro ⟨⟨hlen, hargs⟩, rfl⟩
      exact ⟨_, hargs, hlen, rfl⟩

/-- **`requestServeStatic`** returns if and only if its calls succeed. -/
theorem requestServeStatic_iff (filename : List Byte) (filesize : BitVec 32) :
    requestServeStatic env filename filesize = .ok () ↔
      env.openFile = .ok () ∧ env.mmap = .ok () ∧ env.close = .ok () ∧
        env.writen 0 = .ok () ∧ env.writen 1 = .ok () ∧ env.munmap = .ok () := by
  have htype : (requestGetFiletype filename).length ≤ 10 := by
    rw [requestGetFiletype]
    split_ifs
    · decide
    · decide
    · decide
    · decide
  have hsigned := length_signed_le (k := 9) filesize (by decide)
  have h1 : (ascii "HTTP/1.0 200 OK").length = 15 := rfl
  have h2 : (ascii "Server: CS537 Web Server").length = 24 := rfl
  have h3 : (ascii "Content-Length: ").length = 16 := rfl
  have h4 : (ascii "Content-Type: ").length = 14 := rfl
  have hcrlf : crlf.length = 2 := rfl
  have hbuf : maxBuf = 8192 := rfl
  have hline : maxLine = 8192 := rfl
  simp only [requestServeStatic, sprintf_ok_iff, call_ok_iff, List.length_append, h1, h2, h3, h4,
    hcrlf, hbuf, hline]
  constructor
  · rintro ⟨-, hopen, hmmap, hclose, -, -, -, -, hw0, hw1, hmunmap⟩
    exact ⟨hopen, hmmap, hclose, hw0, hw1, hmunmap⟩
  · rintro ⟨hopen, hmmap, hclose, hw0, hw1, hmunmap⟩
    exact ⟨by omega, hopen, hmmap, hclose, by omega, by omega, by omega, by omega, hw0, hw1, hmunmap⟩

/-- **`requestServeDynamic`**, likewise. -/
theorem requestServeDynamic_iff :
    requestServeDynamic env = .ok () ↔
      env.writen 0 = .ok () ∧ env.fork = .ok () ∧ env.wait = .ok () := by
  have h1 : (ascii "HTTP/1.0 200 OK" ++ crlf).length < maxLine := by decide
  have h2 : (ascii "HTTP/1.0 200 OK" ++ crlf ++ ascii "Server: CS537 Web Server" ++ crlf).length <
      maxLine := by decide
  simp only [requestServeDynamic, sprintf_ok_iff, call_ok_iff, h1, h2, true_and]

/-- **`requestHandle`** returns behind the headers if and only if the uri is served. -/
theorem serve_iff (uri : List Byte) : serve env uri = .ok () ↔ Served env uri := by
  have hparse : serve env uri = .ok () ↔ Named uri ∧
      (match env.stat (fileOf uri) with
      | none => requestError env notFound (fileOf uri)
      | some sbuf =>
        if Static uri then
          if sbuf.isReg = false ∨ sbuf.rusr = false then requestError env notReadable (fileOf uri)
          else requestServeStatic env (fileOf uri) sbuf.size
        else
          if sbuf.isReg = false ∨ sbuf.xusr = false then requestError env notRunnable (fileOf uri)
          else requestServeDynamic env) = .ok () := by
    rw [serve, bind_ok_iff]
    constructor
    · rintro ⟨⟨filename, cgiargs⟩, hp, h⟩
      obtain ⟨hnamed, rfl⟩ := (requestParseURI_iff uri filename).mp ⟨cgiargs, hp⟩
      exact ⟨hnamed, h⟩
    · rintro ⟨hnamed, h⟩
      obtain ⟨cgiargs, hp⟩ := (requestParseURI_iff uri (fileOf uri)).mpr ⟨hnamed, rfl⟩
      exact ⟨_, hp, h⟩
  rw [hparse, Served]
  refine and_congr_right fun _ ↦ ?_
  cases env.stat (fileOf uri) with
  | none => exact requestError_iff env notFound _
  | some sbuf =>
    simp only
    split_ifs
    · exact requestError_iff env notReadable _
    · exact requestServeStatic_iff env _ _
    · exact requestError_iff env notRunnable _
    · exact requestServeDynamic_iff env

/-! ## A worker and its requests -/

/-- The first line of a request, and the lines behind it. -/
theorem requestHandle_cases (stale : Stale) (fd : List (Option Chunk)) :
    ∃ rp, requestLines rp.stream = (requestLines (stream fd)).tail ∧
      ∀ fuel, requestHandle env fuel stale fd =
        let (method, uri) := sscanf ((requestLines (stream fd)).head?.getD stale.buf) stale
        if IsGet method then (requestReadhdrs fuel stale.hdrs rp).map fun _ ↦ serve env uri
        else some (requestError env notImplemented method) := by
  have hstream : (⟨[], fd⟩ : Rio).stream = stream fd := rfl
  obtain ⟨buf, rp, heq, ⟨hnil, rfl, hnil'⟩ | ⟨hlines, -⟩⟩ := readline_cases stale.buf ⟨[], fd⟩
  · rw [hstream] at hnil
    rw [hnil]
    refine ⟨rp, hnil', fun fuel ↦ ?_⟩
    rw [requestHandle, heq]
    rfl
  · rw [hstream] at hlines
    rw [hlines]
    refine ⟨rp, rfl, fun fuel ↦ ?_⟩
    rw [requestHandle, heq]
    rfl

/-- **A request** goes back to its worker if and only if it is answerable. -/
theorem requestHandle_returns_iff (stale : Stale) (fd : List (Option Chunk)) :
    Returns env stale fd ↔ Answerable env stale (stream fd) := by
  obtain ⟨rp, hrest, hhandle⟩ := requestHandle_cases env stale fd
  rw [Returns, Answerable, ← hrest]
  simp only [hhandle]
  generalize sscanf ((requestLines (stream fd)).head?.getD stale.buf) stale = words
  obtain ⟨method, uri⟩ := words
  simp only
  split_ifs with hget
  · rw [← requestReadhdrs_iff, ← serve_iff]
    constructor
    · rintro ⟨n, h⟩
      obtain ⟨rp', hread, hserve⟩ := Option.map_eq_some_iff.mp h
      exact ⟨⟨n, Option.isSome_of_eq_some hread⟩, hserve⟩
    · rintro ⟨⟨n, h⟩, hserve⟩
      obtain ⟨rp', hread⟩ := Option.isSome_iff_exists.mp h
      refine ⟨n, ?_⟩
      rw [hread, ← hserve]
      rfl
  · rw [← requestError_iff]
    exact ⟨fun ⟨_, h⟩ ↦ Option.some.inj h, fun h ↦ ⟨0, congrArg some h⟩⟩

/-- Every call succeeds, and `./home.html` is a file. -/
def quietEnv : Env where
  stat filename := if filename = ascii "./home.html" then some ⟨true, true, false, 512⟩ else none
  writen _ := .ok ()
  openFile := .ok ()
  mmap := .ok ()
  close := .ok ()
  munmap := .ok ()
  fork := .ok ()
  wait := .ok ()

/-- A request that ends behind its first line keeps the worker for ever. -/
theorem not_requestHandle_returns :
    ¬∀ (stale : Stale) (fd : List (Option Chunk)), Returns quietEnv stale fd := by
  intro h
  obtain ⟨n, hn⟩ := h ⟨[], [], [], []⟩ [some ⟨ascii "GET /" ++ crlf, by decide, by decide⟩]
  obtain ⟨rp, hrest, hhandle⟩ := requestHandle_cases quietEnv ⟨[], [], [], []⟩
    [some ⟨ascii "GET /" ++ crlf, by decide, by decide⟩]
  have hlines : requestLines (ascii "GET /" ++ crlf) = [ascii "GET /" ++ crlf] := by
    rw [requestLines, lines_of_ne_nil (by decide)]
    have htake : takeLine newline (maxLine - 2 + 1) (ascii "GET /" ++ crlf) =
        (ascii "GET /" ++ crlf, []) := by decide
    rw [htake, lines_nil]
  have hstream : stream [some ⟨ascii "GET /" ++ crlf, by decide, by decide⟩] =
      ascii "GET /" ++ crlf := rfl
  have hscan : sscanf (ascii "GET /" ++ crlf) ⟨[], [], [], []⟩ = (ascii "GET", ascii "/") := by
    decide
  rw [hstream, hlines] at hrest hhandle
  rw [hhandle, List.head?_cons, Option.getD_some, hscan] at hn
  simp only [if_pos (show IsGet (ascii "GET") by decide)] at hn
  obtain ⟨rp', hread, -⟩ := Option.map_eq_some_iff.mp hn
  have hend := (requestReadhdrs_iff ⟨[], [], [], []⟩ rp).mp ⟨n, Option.isSome_of_eq_some hread⟩
  rw [hrest] at hend
  rcases hend with hmem | ⟨-, hstale⟩
  · exact absurd hmem List.not_mem_nil
  · exact absurd hstale (by decide)

end CS537.Pool
