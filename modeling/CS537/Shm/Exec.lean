import CS537.Shm.Kernel

/-!
# `exec`

`p3/p3b/xv6/kernel/exec.c`, with `loaduvm` of `vm.c` and what `readi` of `fs.c` does for a regular
file. The file is any sequence of bytes that fits an inode, `none` when `namei` finds no file; of
the argument strings only the lengths matter.

The result of `exec` carries a trace: the frames that `allocuvm` took for the image and the blocks
of bytes that `loaduvm` stored, in the order in which it happened.
-/

namespace CS537.Shm

/-- `MAXFILE * BSIZE`. -/
def maxFileSize : ℕ := 140 * 512

/-- `MAXARG`. -/
def maxarg : ℕ := 32

/-- The contents of a regular file. -/
structure File where
  bytes : List (BitVec 8)
  size_le : bytes.length ≤ maxFileSize

namespace File

variable (f : File)

def size : ℕ := f.bytes.length

def byte (i : ℕ) : ℕ := ((f.bytes[i]?).getD 0).toNat

/-- Two bytes at `i`, little-endian. -/
def ushort (i : ℕ) : ℕ := f.byte i + 256 * f.byte (i + 1)

/-- Four bytes at `i`, little-endian. -/
def uint (i : ℕ) : ℕ := f.ushort i + 65536 * f.ushort (i + 2)

/-- The byte number `i` of the file. -/
def data (i : ℕ) : BitVec 8 := (f.bytes[i]?).getD 0

/-- `n` bytes of the file from `off` on. -/
def slice (off n : ℕ) : List (BitVec 8) := (List.range' off n).map f.data

end File

/-- `readi(ip, dst, off, n)` on a file of the given size: the returned length, `none` for -1. -/
def readi (size off n : ℕ) : Option ℕ :=
  if size < off ∨ (off + n) % 2 ^ 32 < off then none
  else if size < (off + n) % 2 ^ 32 then some (size - off)
  else some n

/-- `sizeof(struct elfhdr)` and `sizeof(struct proghdr)`. -/
def elfhdrSize : ℕ := 52

def proghdrSize : ℕ := 32

/-- The fields of `struct elfhdr` that `exec` needs. -/
structure Elfhdr where
  magic : ℕ
  phoff : ℕ
  phnum : ℕ

/-- The fields of `struct proghdr` that `exec` needs. -/
structure Proghdr where
  type : ℕ
  offset : ℕ
  va : ℕ
  filesz : ℕ
  memsz : ℕ

def File.elfhdr (f : File) : Elfhdr := ⟨f.uint 0, f.uint 28, f.ushort 44⟩

/-- The program header at `off`. -/
def File.proghdr (f : File) (off : ℕ) : Proghdr :=
  ⟨f.uint off, f.uint (off + 4), f.uint (off + 8), f.uint (off + 16), f.uint (off + 20)⟩

/-! ## `loaduvm` -/

/-- `alloc r`: `allocuvm` takes the frame `r`. `store pa off len`: `loaduvm` stores `len` bytes of
the file, those from `off` on, from the address `pa` of a page on, at most a page of them. -/
inductive Event
  | alloc (r : ℕ)
  | store (pa off len : ℕ)
  deriving DecidableEq, Repr

/-- The loop of `loaduvm`: `n` rounds from `i` on. The last component is false when the function
returns -1. For an absent page `PTE_ADDR(*pte)` is 0. The loop ends before `i` wraps: no file is
so long. -/
def loadPages (d : PageDir) (f : File) (addr offset sz : ℕ) :
    ℕ → ℕ → Except String (List Event × Bool)
  | 0, _ => pure ([], true)
  | n + 1, i =>
    match lookup d ((addr + i) % 2 ^ 32 / pgsize) with
    | none => throw "loaduvm: address should exist"
    | some e =>
      let pa := (e.map Pte.pa).getD 0
      let len := min (sz - i) pgsize
      match readi f.size ((offset + i) % 2 ^ 32) len with
      | none => pure ([], false)
      | some k =>
        if k = len then do
          let (l, ok) ← loadPages d f addr offset sz n (i + pgsize)
          pure (.store pa ((offset + i) % 2 ^ 32) k :: l, ok)
        else pure ([.store pa ((offset + i) % 2 ^ 32) k], false)

/-- `loaduvm(pgdir, addr, ip, offset, sz)`. -/
def loaduvm (d : PageDir) (f : File) (addr offset sz : ℕ) : Except String (List Event × Bool) :=
  if addr % pgsize ≠ 0 then throw "loaduvm: addr must be page aligned"
  else loadPages d f addr offset sz (rounds 0 sz) 0

/-! ## The new image -/

/-- What `exec` has built so far: memory, the new address space, its size, and the trace. -/
structure Image where
  freelist : Freelist
  pgdir : PageDir
  sz : ℕ
  trace : List Event

/-- `allocuvm` on the new image; the size becomes the returned value. -/
def Image.grow (L : Link) (shmtop newsz : ℕ) (im : Image) : Except String Image := do
  let g ← allocuvm L shmtop im.sz newsz im.freelist im.pgdir
  pure { im with
    freelist := g.freelist
    pgdir := g.pgdir
    sz := g.ret
    trace := im.trace ++ g.frames.map .alloc }

/-- One program header of type `ELF_PROG_LOAD`; false is `goto bad`. -/
def loadSegment (L : Link) (shmtop : ℕ) (f : File) (ph : Proghdr) (im : Image) :
    Except String (Image × Bool) :=
  if ph.memsz < ph.filesz then pure (im, false)
  else do
    let im ← im.grow L shmtop ((ph.va + ph.memsz) % 2 ^ 32)
    if im.sz = 0 then pure (im, false)
    else do
      let (l, ok) ← loaduvm im.pgdir f ph.va ph.offset ph.filesz
      pure ({ im with trace := im.trace ++ l }, ok)

/-- The loop of `exec` over `n` program headers from `off` on; false is `goto bad`. -/
def loadSegments (L : Link) (shmtop : ℕ) (f : File) :
    ℕ → ℕ → Image → Except String (Image × Bool)
  | 0, _, im => pure (im, true)
  | n + 1, off, im =>
    if readi f.size off proghdrSize ≠ some proghdrSize then pure (im, false)
    else if (f.proghdr off).type ≠ 1 then
      loadSegments L shmtop f n ((off + proghdrSize) % 2 ^ 32) im
    else do
      match ← loadSegment L shmtop f (f.proghdr off) im with
      | (im, false) => pure (im, false)
      | (im, true) => loadSegments L shmtop f n ((off + proghdrSize) % 2 ^ 32) im

/-- The length of an argument string; it lies in user memory. -/
abbrev Arg := Fin usertop

/-- The loop that pushes the argument strings; the result is the final `sp`, or `none` for
`goto bad`. -/
def pushArgs (d : PageDir) : List Arg → ℕ → ℕ → Except String (Option ℕ)
  | [], _, sp => pure (some sp)
  | a :: argv, argc, sp =>
    if maxarg ≤ argc then pure none
    else do
      let sp := sub32 sp (a + 1) / 4 * 4
      match ← copyout d sp (a + 1) with
      | false => pure none
      | true => pushArgs d argv (argc + 1) sp

/-- The argument strings and `ustack`; whether both fit. -/
def pushAll (d : PageDir) (argv : List Arg) (sz : ℕ) : Except String Bool := do
  match ← pushArgs d argv 0 sz with
  | none => pure false
  | some sp => copyout d (sub32 sp ((3 + argv.length + 1) * 4)) ((3 + argv.length + 1) * 4)

/-- `exec` from `setupkvm` to the last `copyout`, for a file with the right magic number. -/
def buildImage (L : Link) (shmtop : ℕ) (f : File) (argv : List Arg) (m : Freelist) (d : PageDir) :
    Except String (Image × Bool) := do
  match ← loadSegments L shmtop f f.elfhdr.phnum f.elfhdr.phoff ⟨m, d, 0, []⟩ with
  | (im, false) => pure (im, false)
  | (im, true) => do
    -- a one-page stack at the next page boundary
    let sz := pgRoundUp im.sz
    let im ← { im with sz := sz }.grow L shmtop ((sz + pgsize) % 2 ^ 32)
    if im.sz = 0 then pure (im, false)
    else do
      let ok ← pushAll im.pgdir argv im.sz
      pure (im, ok)

/-! ## `exec` -/

/-- One round of the loop of `exec` over the regions. -/
def leaveOne (L : Link) (q : Slot) (s : Kernel) (k : Key) : Except String Kernel := do
  let s ← if (s.proc q).shmemVaddr k ≠ 0 then shmDecreaseCount L k s else pure s
  pure (s.setProc q
    { s.proc q with shmemVaddr := Function.update (s.proc q).shmemVaddr k 0 })

/-- The end of `exec`: the process leaves its regions and commits to the new image; `freevm` looks
at the new size. -/
def commit (L : Link) (q : Slot) (im : Image) (s : Kernel) : Except String Kernel := do
  let s := (s.setFreelist im.freelist).setProc q { s.proc q with shmtop := usertop }
  let s ← keys.foldlM (leaveOne L q) s
  let old := (s.proc q).pgdir
  let s := s.setProc q { s.proc q with pgdir := im.pgdir, sz := im.sz }
  let m ← freevm L im.sz s.freelist old
  pure (s.setFreelist m)

/-- `exec` in the process `q`. -/
def exec (L : Link) (q : Slot) (file : Option File) (argv : List Arg) (s : Kernel) :
    Except String (Kernel × ℤ × List Event) :=
  match file with
  | none => pure (s, -1, [])
  | some f =>
    if (readi f.size 0 elfhdrSize).getD (2 ^ 32 - 1) < elfhdrSize ∨ f.elfhdr.magic ≠ 0x464C457F then
      pure (s, -1, [])
    else do
      match ← setupkvm L s.freelist with
      | (m, none) => pure (s.setFreelist m, -1, [])
      | (m, some d) =>
        match ← buildImage L (s.proc q).shmtop f argv m d with
        | (im, false) => do
          let m ← freevm L (s.proc q).sz im.freelist im.pgdir
          pure (s.setFreelist m, -1, im.trace)
        | (im, true) => do
          let s ← commit L q im s
          pure (s, 0, im.trace)

end CS537.Shm
