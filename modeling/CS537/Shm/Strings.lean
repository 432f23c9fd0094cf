import CS537.Lib.Interference
import CS537.Shm.Layout
import CS537.Shm.Syscall

/-!
# String arguments

The system calls that take strings, as far as they look at user memory: `fetchstr` and `argstr` of
`p3/p3b/xv6/kernel/syscall.c`, `sys_chdir`, `sys_exec`, `sys_link`, `sys_mkdir`, `sys_mknod`,
`sys_open` and `sys_unlink` of `sysfile.c`, `namex` of `fs.c`, the loops of `exec`, and `strlen` and
`safestrcpy` of `string.c`. The kernel reads through the page table of the process, byte by byte,
and between two reads any other process may store to memory of its own, shared memory included.

What else decides how a call goes on, such as the file system, is asked for. The bound `fuel` on the
rounds of the loops that have none is arbitrary.
-/

open Function Interference Transition

namespace CS537.Shm

/-- The contents of physical memory. -/
abbrev Phys := ℕ → BitVec 8

/-- A byte of user memory; an absent page is a page fault. -/
def Proc.load (p : Proc) (mem : Phys) (x : ℕ) : Option (BitVec 8) :=
  (p.pgdir.translate x).map mem

/-- The word at `x`, little-endian. -/
def Proc.loadWord (p : Proc) (mem : Phys) (x : ℕ) : Option (BitVec 32) := do
  let b₀ ← p.load mem x
  let b₁ ← p.load mem (x + 1)
  let b₂ ← p.load mem (x + 2)
  let b₃ ← p.load mem (x + 3)
  some (b₃ ++ b₂ ++ b₁ ++ b₀)

/-- A string as far as `fetchstr` has checked its address; the kernel gets hold of strings from
`fetchstr` only. -/
structure Str (p : Proc) where
  addr : ℕ
  lt : addr < bound p addr

/-- What the kernel does with user memory. `word x`: `fetchint` reads a word. `check s i b`:
`fetchstr` reads the byte `b` at the offset `i`, and accepts the string if it is NUL. `read s x`:
the kernel reads a byte of the string at the address `x`. `measure s`, `lens s n m`: around the
two calls of `strlen` in `exec`, with what they return. -/
inductive Access (p : Proc)
  | word (x : ℕ)
  | check (s : Str p) (i : ℕ) (b : Option (BitVec 8))
  | read (s : Str p) (x : ℕ)
  | measure (s : Str p)
  | lens (s : Str p) (n m : ℕ)

abbrev Code (p : Proc) := Prog Phys (Access p)

namespace Code

variable {p : Proc}

/-- What code that does not look at user memory answers. -/
def elsewhere : Code p ℕ := .ask .ret

/-- A page fault in the kernel is a panic. -/
def orFault {α : Type} (a : Option α) : Code p α := a.elim .crash .ret

/-- `*x` where `x` points into the string. -/
def read (s : Str p) (x : ℕ) : Code p (BitVec 8) :=
  .look (fun _ ↦ .read s x) fun mem ↦ orFault (p.load mem x)

/-! ## `syscall.c` -/

def fetchint (addr : ℕ) : Code p (Option (BitVec 32)) :=
  if bound p addr ≤ addr ∨ bound p addr < (addr + 4) % 2 ^ 32 then pure none
  else .look (fun _ ↦ .word addr) fun mem ↦ orFault ((p.loadWord mem addr).map some)

def argint (esp n : ℕ) : Code p (Option (BitVec 32)) := fetchint ((esp + 4 + 4 * n) % 2 ^ 32)

/-- The loop of `fetchstr`: `n` rounds from the offset `i` on. -/
def scan (s : Str p) : ℕ → ℕ → Code p (Option ℕ)
  | 0, _ => pure none
  | n + 1, i => .look (fun mem ↦ .check s i (p.load mem (s.addr + i))) fun mem ↦ do
    let b ← orFault (p.load mem (s.addr + i))
    if b = 0 then pure (some i) else scan s n (i + 1)

/-- `fetchstr`: the string and its length. -/
def fetchstr (addr : ℕ) : Code p (Option (Str p × ℕ)) :=
  if h : bound p addr ≤ addr then pure none
  else do
    let s : Str p := ⟨addr, not_le.mp h⟩
    let len ← scan s (bound p addr - addr) 0
    pure (len.map fun len ↦ (s, len))

def argstr (esp n : ℕ) : Code p (Option (Str p × ℕ)) := do
  match ← argint esp n with
  | none => pure none
  | some addr => fetchstr addr.toNat

/-! ## `string.c` -/

/-- `memmove` reads the bytes in order: its destination lies in kernel memory, above the string. -/
def memmove (s : Str p) : ℕ → ℕ → Code p Unit
  | _, 0 => pure ()
  | x, n + 1 => do
    let _ ← read s x
    memmove s (x + 1) n

def strlen (s : Str p) : ℕ → ℕ → Code p ℕ
  | 0, _ => .crash
  | fuel + 1, n => do
    if (← read s (s.addr + n)) = 0 then pure n else strlen s fuel (n + 1)

/-- `safestrcpy(_, t, n)`, with `n` reads left at most. -/
def safestrcpy (s : Str p) : ℕ → ℕ → Code p Unit
  | _, 0 => pure ()
  | t, n + 1 => do
    if (← read s t) = 0 then pure () else safestrcpy s (t + 1) n

/-! ## `fs.c` -/

/-- `while(test) path++`. -/
def advance (test : ℕ → Code p Bool) : ℕ → ℕ → Code p ℕ
  | 0, _ => .crash
  | fuel + 1, path => do
    if ← test path then advance test fuel (path + 1) else pure path

/-- `*path == '/'`. -/
def isSlash (s : Str p) (path : ℕ) : Code p Bool := do
  let b ← read s path
  pure (b == 0x2F#8)

/-- `*path != '/' && *path != 0`. -/
def inElem (s : Str p) (path : ℕ) : Code p Bool := do
  if (← read s path) = 0x2F#8 then pure false
  else
    let b ← read s path
    pure (b != 0)

def dirsiz : ℕ := 14

/-- `skipelem`; `none` when no element is left. -/
def skipelem (fuel : ℕ) (s : Str p) (path : ℕ) : Code p (Option ℕ) := do
  let start ← advance (isSlash s) fuel path
  if (← read s start) = 0 then pure none
  else do
    let path ← advance (inElem s) fuel start
    memmove s start (min (path - start) dirsiz)
    let path ← advance (isSlash s) fuel path
    pure (some path)

/-- `nameiparent && *path == '\0'`. -/
def atLast (s : Str p) (nameiparent : Bool) (path : ℕ) : Code p Bool :=
  if nameiparent then do
    let b ← read s path
    pure (b == 0)
  else pure false

/-- The loop of `namex`; whether it finds an inode. The first answer is whether the inode is a
directory, the second whether `dirlookup` finds the element. -/
def namexLoop (fuel : ℕ) (s : Str p) (nameiparent : Bool) : ℕ → ℕ → Code p Bool
  | 0, _ => .crash
  | n + 1, path => do
    match ← skipelem fuel s path with
    | none => pure !nameiparent
    | some path =>
      if (← elsewhere) = 0 then pure false
      else if ← atLast s nameiparent path then pure true
      else if (← elsewhere) = 0 then pure false
      else namexLoop fuel s nameiparent n path

def namex (fuel : ℕ) (s : Str p) (nameiparent : Bool) : Code p Bool := do
  -- where the walk starts
  let _ ← isSlash s s.addr
  namexLoop fuel s nameiparent fuel s.addr

def namei (fuel : ℕ) (s : Str p) : Code p Bool := namex fuel s false

def nameiparent (fuel : ℕ) (s : Str p) : Code p Bool := namex fuel s true

/-! ## `exec.c` -/

/-- `copyout(pgdir, va, p, len)` from the address `x` of the string, with `uva2ka` asked for. -/
def copyout (s : Str p) : ℕ → ℕ → ℕ → ℕ → Code p Bool
  | 0, _, _, _ => .crash
  | fuel + 1, va, x, len => do
    if len = 0 then pure true
    else if (← elsewhere) = 0 then pure false
    else do
      let n := min (pgsize - va % pgsize) len
      memmove s x n
      copyout s fuel ((va / pgsize + 1) * pgsize % 2 ^ 32) (x + n) (len - n)

/-- One argument string; `none` is `goto bad`. -/
def pushArg (fuel : ℕ) (s : Str p) (sp : ℕ) : Code p (Option ℕ) := do
  Prog.note (.measure s)
  let n ← strlen s fuel 0
  let sp := sub32 sp (n + 1) / 4 * 4
  let m ← strlen s fuel 0
  Prog.note (.lens s n m)
  if ← copyout s fuel sp s.addr (m + 1) then pure (some sp) else pure none

def pushArgs (fuel : ℕ) : List (Str p) → ℕ → ℕ → Code p (Option ℕ)
  | [], _, sp => pure (some sp)
  | s :: argv, argc, sp =>
    if maxarg ≤ argc then pure none
    else do
      match ← pushArg fuel s sp with
      | none => pure none
      | some sp => pushArgs fuel argv (argc + 1) sp

/-- `for(last=s=path; *s; s++) if(*s == '/') last = s+1;` -/
def lastElem (path : Str p) : ℕ → ℕ → ℕ → Code p ℕ
  | 0, _, _ => .crash
  | fuel + 1, last, x => do
    if (← read path x) = 0 then pure last
    else if ← isSlash path x then lastElem path fuel (x + 1) (x + 1)
    else lastElem path fuel last (x + 1)

/-- `exec(path, argv)`. Asked for: whether the image can be built, its size, whether the last
`copyout` succeeds. -/
def exec (fuel : ℕ) (path : Str p) (argv : List (Str p)) : Code p ℤ := do
  if !(← namei fuel path) then pure (-1)
  else if (← elsewhere) = 0 then pure (-1)
  else do
    match ← pushArgs fuel argv 0 (← elsewhere) with
    | none => pure (-1)
    | some _ =>
      if (← elsewhere) = 0 then pure (-1)
      else do
        let last ← lastElem path fuel path.addr path.addr
        safestrcpy path last 15
        pure 0

/-! ## `sysfile.c` -/

/-- The loop of `sys_exec` over `uargv`: `n` rounds from `i` on. -/
def fetchArgs (uargv : ℕ) : ℕ → ℕ → Code p (Option (List (Str p)))
  | 0, _ => pure none
  | n + 1, i => do
    match ← fetchint ((uargv + 4 * i) % 2 ^ 32) with
    | none => pure none
    | some uarg =>
      if uarg = 0 then pure (some [])
      else do
        match ← fetchstr uarg.toNat with
        | none => pure none
        | some (s, _) =>
          let argv ← fetchArgs uargv n (i + 1)
          pure (argv.map (s :: ·))

def sysExec (fuel esp : ℕ) : Code p ℤ := do
  match ← argstr esp 0 with
  | none => pure (-1)
  | some (path, _) =>
    match ← argint esp 1 with
    | none => pure (-1)
    | some uargv =>
      match ← fetchArgs uargv.toNat maxarg 0 with
      | none => pure (-1)
      | some argv => exec fuel path argv

/-- The rest of a call that has got hold of an inode, or has not; its result is asked for. -/
def rest (found : Bool) : Code p ℤ :=
  if found then do
    let n ← elsewhere
    pure (n - 1)
  else pure (-1)

def sysChdir (fuel esp : ℕ) : Code p ℤ := do
  match ← argstr esp 0 with
  | none => pure (-1)
  | some (path, _) => rest (← namei fuel path)

/-- `create(path, …)` for `sys_mkdir`. -/
def sysMkdir (fuel esp : ℕ) : Code p ℤ := do
  match ← argstr esp 0 with
  | none => pure (-1)
  | some (path, _) => rest (← nameiparent fuel path)

def sysMknod (fuel esp : ℕ) : Code p ℤ := do
  match ← argstr esp 0 with
  | none => pure (-1)
  | some (path, _) =>
    match ← argint esp 1 with
    | none => pure (-1)
    | some _ =>
      match ← argint esp 2 with
      | none => pure (-1)
      | some _ => rest (← nameiparent fuel path)

def sysUnlink (fuel esp : ℕ) : Code p ℤ := do
  match ← argstr esp 0 with
  | none => pure (-1)
  | some (path, _) => rest (← nameiparent fuel path)

/-- `O_CREATE`. -/
def oCreate : BitVec 32 := 0x200#32

def sysOpen (fuel esp : ℕ) : Code p ℤ := do
  match ← argstr esp 0 with
  | none => pure (-1)
  | some (path, _) =>
    match ← argint esp 1 with
    | none => pure (-1)
    | some omode =>
      if omode &&& oCreate ≠ 0 then rest (← nameiparent fuel path)
      else rest (← namei fuel path)

/-- Between the two walks: whether the inode of `old` may be linked. -/
def sysLink (fuel esp : ℕ) : Code p ℤ := do
  match ← argstr esp 0 with
  | none => pure (-1)
  | some (old, _) =>
    match ← argstr esp 1 with
    | none => pure (-1)
    | some (new, _) =>
      if !(← namei fuel old) then pure (-1)
      else if (← elsewhere) = 0 then pure (-1)
      else rest (← nameiparent fuel new)

/-- The calls that take strings. -/
def stringCalls (fuel esp : ℕ) : List (Code p ℤ) :=
  [sysChdir fuel esp, sysExec fuel esp, sysLink fuel esp, sysMkdir fuel esp, sysMknod fuel esp,
    sysOpen fuel esp, sysUnlink fuel esp]

end Code

end CS537.Shm
