import CS537.Lib.Overlay
import CS537.Shm.Copy
import CS537.Shm.Teardown

/-!
# `exec` and the contents of memory

What `exec` writes: the bytes of the segments, the argument strings, `ustack`, and the junk in the
frames of the old image. Each function below gives the contents of physical memory after the
function of `Exec`, `Vm` or `Kernel` it is named after. The argument strings lie in the old image,
which is left alone until the new one is complete, so they come as values.
-/

open Finset Function Wrapping

namespace CS537.Shm

variable {L : Link}

/-! ## Loading segments -/

/-- `readi(ip, dst, off, n)`. -/
def readiBytes (f : File) (dst off n : ℕ) (mem : Phys) : Phys :=
  match readi f.size off n with
  | none => mem
  | some k => overlay mem dst (f.slice off k)

def loadPagesBytes (d : PageDir) (f : File) (addr offset sz : ℕ) : ℕ → ℕ → Phys → Phys
  | 0, _, mem => mem
  | n + 1, i, mem =>
    match lookup d ((addr + i) % 2 ^ 32 / pgsize) with
    | none => mem
    | some e =>
      let pa := (e.map Pte.pa).getD 0
      let len := min (sz - i) pgsize
      let mem := readiBytes f pa ((offset + i) % 2 ^ 32) len mem
      if readi f.size ((offset + i) % 2 ^ 32) len = some len then
        loadPagesBytes d f addr offset sz n (i + pgsize) mem
      else mem

def loaduvmBytes (d : PageDir) (f : File) (addr offset sz : ℕ) (mem : Phys) : Phys :=
  if addr % pgsize ≠ 0 then mem else loadPagesBytes d f addr offset sz (rounds 0 sz) 0 mem

def Image.growBytes (shmtop newsz : ℕ) (im : Image) (mem : Phys) : Phys :=
  allocuvmBytes shmtop im.sz newsz im.freelist im.pgdir mem

def loadSegmentBytes (L : Link) (shmtop : ℕ) (f : File) (ph : Proghdr) (im : Image) (mem : Phys) :
    Phys :=
  if ph.memsz < ph.filesz then mem
  else
    let newsz := (ph.va + ph.memsz) % 2 ^ 32
    let mem := im.growBytes shmtop newsz mem
    match im.grow L shmtop newsz with
    | .error _ => mem
    | .ok im =>
      if im.sz = 0 then mem else loaduvmBytes im.pgdir f ph.va ph.offset ph.filesz mem

def loadSegmentsBytes (L : Link) (shmtop : ℕ) (f : File) : ℕ → ℕ → Image → Phys → Phys
  | 0, _, _, mem => mem
  | n + 1, off, im, mem =>
    if readi f.size off proghdrSize ≠ some proghdrSize then mem
    else if (f.proghdr off).type ≠ 1 then
      loadSegmentsBytes L shmtop f n ((off + proghdrSize) % 2 ^ 32) im mem
    else
      let mem := loadSegmentBytes L shmtop f (f.proghdr off) im mem
      match loadSegment L shmtop f (f.proghdr off) im with
      | .ok (im, true) => loadSegmentsBytes L shmtop f n ((off + proghdrSize) % 2 ^ 32) im mem
      | _ => mem

/-! ## The stack -/

/-- An argument string, without its NUL. Which of them a process can pass, `Proc.Passes` says. -/
structure ArgStr where
  bytes : List (BitVec 8)
  nulFree : 0 ∉ bytes
  lt : bytes.length < usertop

/-- What `strlen` returns. -/
def ArgStr.len (a : ArgStr) : Arg := ⟨a.bytes.length, a.lt⟩

/-- The loop of `copyout` from the offset `o` of the page `v` on. -/
def copyoutPagesBytes (d : PageDir) : ℕ → ℕ → ℕ → List (BitVec 8) → Phys → Phys
  | 0, _, _, _, mem => mem
  | n + 1, v, o, buf, mem =>
    match uva2ka d v with
    | .ok (some pa0) => copyoutPagesBytes d n ((v + 1) % 2 ^ 20) 0 (buf.drop (pgsize - o))
        (overlay mem (pa0 + o) (buf.take (pgsize - o)))
    | _ => mem

/-- `copyout(pgdir, va, buf, len)`. -/
def copyoutBytes (d : PageDir) (va : ℕ) (buf : List (BitVec 8)) (mem : Phys) : Phys :=
  if buf.length = 0 then mem
  else copyoutPagesBytes d (pageUp (va % pgsize + buf.length)) (va / pgsize) (va % pgsize) buf mem

/-- `sp` after a string of the length `a` has been pushed. -/
def pushSp (sp : ℕ) (a : Arg) : ℕ := sub32 sp (a + 1) / 4 * 4

def pushArgsBytes (d : PageDir) : List ArgStr → ℕ → ℕ → Phys → Phys
  | [], _, _, mem => mem
  | a :: argv, argc, sp, mem =>
    if maxarg ≤ argc then mem
    else
      let sp := pushSp sp a.len
      let mem := copyoutBytes d sp (a.bytes ++ [0]) mem
      if copyout d sp (a.len + 1) matches .ok true then pushArgsBytes d argv (argc + 1) sp mem
      else mem

/-- The addresses of the strings, which the loop stores in `ustack[3]`, `ustack[4]`, …. -/
def argPtrs : List ArgStr → ℕ → List ℕ
  | [], _ => []
  | a :: argv, sp => pushSp sp a.len :: argPtrs argv (pushSp sp a.len)

/-- `sp` after the loop. -/
def argSp (argv : List ArgStr) (sp : ℕ) : ℕ := argv.foldl (fun sp a ↦ pushSp sp a.len) sp

/-- The words of `ustack` when the loop has ended with `sp`. -/
def ustack (argv : List ArgStr) (sz : ℕ) : List (BitVec 32) :=
  0xFFFFFFFF#32 :: BitVec.ofNat 32 argv.length ::
    BitVec.ofNat 32 (sub32 (argSp argv sz) ((argv.length + 1) * 4)) ::
    ((argPtrs argv sz).map (BitVec.ofNat 32) ++ [0#32])

/-- The bytes of a word, little-endian. -/
def wordBytes (w : BitVec 32) : List (BitVec 8) :=
  [w.extractLsb' 0 8, w.extractLsb' 8 8, w.extractLsb' 16 8, w.extractLsb' 24 8]

/-- `proc->tf->esp` of an image of the size `sz`. -/
def execEsp (argv : List ArgStr) (sz : ℕ) : ℕ :=
  sub32 (argSp argv sz) ((3 + argv.length + 1) * 4)

def pushAllBytes (d : PageDir) (argv : List ArgStr) (sz : ℕ) (mem : Phys) : Phys :=
  let mem := pushArgsBytes d argv 0 sz mem
  match pushArgs d (argv.map ArgStr.len) 0 sz with
  | .ok (some _) => copyoutBytes d (execEsp argv sz) ((ustack argv sz).flatMap wordBytes) mem
  | _ => mem

def buildImageBytes (L : Link) (shmtop : ℕ) (f : File) (argv : List ArgStr) (m : Freelist)
    (d : PageDir) (mem : Phys) : Phys :=
  let mem := loadSegmentsBytes L shmtop f f.elfhdr.phnum f.elfhdr.phoff ⟨m, d, 0, []⟩ mem
  match loadSegments L shmtop f f.elfhdr.phnum f.elfhdr.phoff ⟨m, d, 0, []⟩ with
  | .ok (im, true) =>
    let sz := pgRoundUp im.sz
    let mem := Image.growBytes shmtop ((sz + pgsize) % 2 ^ 32) { im with sz := sz } mem
    match Image.grow L shmtop ((sz + pgsize) % 2 ^ 32) { im with sz := sz } with
    | .ok im => if im.sz = 0 then mem else pushAllBytes im.pgdir argv im.sz mem
    | .error _ => mem
  | _ => mem

/-! ## Leaving the old image -/

def freeRegionBytes (L : Link) (k : Key) : ℕ → ℕ → Kernel → Phys → Phys
  | 0, _, _, mem => mem
  | n + 1, i, s, mem =>
    match kfree L (s.shmemPaddr k i) s.freelist with
    | .ok m => freeRegionBytes L k n (i + 1) ((s.setFreelist m).setPaddr k i 0)
        (kfreeBytes (s.shmemPaddr k i) s.freelist mem)
    | .error _ => mem

def shmDecreaseCountBytes (L : Link) (k : Key) (s : Kernel) (mem : Phys) : Phys :=
  let s := s.setCount k (toInt32 (s.shmemCount k - 1))
  if s.shmemCount k = 0 then freeRegionBytes L k (s.shmemPages k) 0 s mem else mem

def leaveOneBytes (L : Link) (q : Slot) (s : Kernel) (k : Key) (mem : Phys) : Phys :=
  if (s.proc q).shmemVaddr k ≠ 0 then shmDecreaseCountBytes L k s mem else mem

def leaveKeysBytes (L : Link) (q : Slot) : List Key → Kernel → Phys → Phys
  | [], _, mem => mem
  | k :: ks, s, mem =>
    let mem := leaveOneBytes L q s k mem
    match leaveOne L q s k with
    | .ok s => leaveKeysBytes L q ks s mem
    | .error _ => mem

def commitBytes (L : Link) (q : Slot) (im : Image) (s : Kernel) (mem : Phys) : Phys :=
  let s := (s.setFreelist im.freelist).setProc q { s.proc q with shmtop := usertop }
  let mem := leaveKeysBytes L q keys s mem
  match keys.foldlM (leaveOne L q) s with
  | .ok s => freevmBytes L im.sz s.freelist (s.proc q).pgdir mem
  | .error _ => mem

/-! ## `exec` -/

def execBytes (L : Link) (q : Slot) (f : File) (argv : List ArgStr) (s : Kernel) (mem : Phys) :
    Phys :=
  if (readi f.size 0 elfhdrSize).getD (2 ^ 32 - 1) < elfhdrSize ∨ f.elfhdr.magic ≠ 0x464C457F then
    mem
  else
    let mem := setupkvmBytes L s.freelist mem
    match setupkvm L s.freelist with
    | .ok (m, some d) =>
      let mem := buildImageBytes L (s.proc q).shmtop f argv m d mem
      match buildImage L (s.proc q).shmtop f (argv.map ArgStr.len) m d with
      | .ok (im, true) => commitBytes L q im s mem
      | .ok (im, false) => freevmBytes L (s.proc q).sz im.freelist im.pgdir mem
      | .error _ => mem
    | _ => mem

end CS537.Shm
