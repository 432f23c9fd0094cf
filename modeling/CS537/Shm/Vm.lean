import CS537.Shm.Memory

/-!
# User memory of the shared-memory kernel

The routines of `p3/p3b/xv6/kernel/vm.c` on the user part of an address space. `allocuvm` is told
`proc->shmtop`, `freevm` and `copyuvm` are told `proc->sz`: they read them from the process that
runs, whatever address space they are called on.
-/

namespace CS537.Shm

variable (L : Link)

/-- The loop of `deallocuvm` over `n` pages from `v` on. -/
def deallocPages : ℕ → ℕ → Freelist → PageDir → Except String (Freelist × PageDir)
  | 0, _, m, d => pure (m, d)
  | n + 1, v, m, d =>
    match d.pte v with
    | none => deallocPages n (v + 1) m d
    | some p =>
      if p.pa = 0 then throw "kfree"
      else do
        let m ← kfree L p.pa m
        deallocPages n (v + 1) m (d.setPte v none)

/-- `deallocuvm(pgdir, oldsz, newsz)`; the last component is the returned size. -/
def deallocuvm (oldsz newsz : ℕ) (m : Freelist) (d : PageDir) :
    Except String (Freelist × PageDir × ℕ) :=
  if oldsz ≤ newsz then pure (m, d, oldsz)
  else do
    let (m, d) ← deallocPages L (rounds (pageUp newsz) oldsz) (pageUp newsz) m d
    pure (m, d, newsz)

/-- The loop of `allocuvm` over `n` pages from `v` on. The result also lists the frames that were
taken; its last component is false when `kalloc` has failed. -/
def allocPages : ℕ → ℕ → Freelist → PageDir → Except String (Freelist × PageDir × List ℕ × Bool)
  | 0, _, m, d => pure (m, d, [], true)
  | n + 1, v, m, d =>
    match kalloc m with
    | none => pure (m, d, [], false)
    | some (r, m) => do
      let (m, d, _) ← mappages (v * pgsize) pgsize r true true m d
      let (m, d, l, ok) ← allocPages n (v + 1) m d
      pure (m, d, r :: l, ok)

/-- What `allocuvm` leaves: memory, address space, the frames it took and the size it returns. -/
structure Grown where
  freelist : Freelist
  pgdir : PageDir
  frames : List ℕ
  ret : ℕ

/-- `allocuvm(pgdir, oldsz, newsz)` while `proc->shmtop` is `shmtop`. -/
def allocuvm (shmtop oldsz newsz : ℕ) (m : Freelist) (d : PageDir) : Except String Grown :=
  if shmtop < newsz then pure ⟨m, d, [], 0⟩
  else if newsz < oldsz then pure ⟨m, d, [], oldsz⟩
  else do
    match ← allocPages (rounds (pageUp oldsz) newsz) (pageUp oldsz) m d with
    | (m, d, l, true) => pure ⟨m, d, l, newsz⟩
    | (m, d, l, false) =>
      let (m, d, _) ← deallocuvm L newsz oldsz m d
      pure ⟨m, d, l, 0⟩

/-- The loop of `freevm` over the page directory. -/
def freeTables (d : PageDir) : List ℕ → Freelist → Except String Freelist
  | [], m => pure m
  | x :: xs, m =>
    match d.tab x with
    | none => freeTables d xs m
    | some r => do
      let m ← kfree L r m
      freeTables d xs m

/-- `freevm(pgdir)` while `proc->sz` is `sz`. -/
def freevm (sz : ℕ) (m : Freelist) (d : PageDir) : Except String Freelist :=
  if d.frame = 0 then throw "freevm: no pgdir"
  else do
    let (m, d, _) ← deallocuvm L sz 0 m d
    let m ← freeTables L d (List.range 1024) m
    kfree L d.frame m

/-- The first loop of `copyuvm`: the pages of `src` from `v` on are copied into fresh frames. -/
def copyPages (src : PageDir) :
    ℕ → ℕ → Freelist → PageDir → Except String (Freelist × PageDir × Bool)
  | 0, _, m, d => pure (m, d, true)
  | n + 1, v, m, d =>
    match lookup src v with
    | none => throw "copyuvm: pte should exist"
    | some none => throw "copyuvm: page not present"
    | some (some _) =>
      match kalloc m with
      | none => pure (m, d, false)
      | some (r, m) => do
        match ← mappages (v * pgsize) pgsize r true true m d with
        | (m, d, true) => copyPages src n (v + 1) m d
        | (m, d, false) => pure (m, d, false)

/-- The second loop of `copyuvm`: the pages of `src` from `v` on are mapped to the same frames. -/
def sharePages (src : PageDir) :
    ℕ → ℕ → Freelist → PageDir → Except String (Freelist × PageDir × Bool)
  | 0, _, m, d => pure (m, d, true)
  | n + 1, v, m, d =>
    match lookup src v with
    | none => throw "copyuvm: pte should exist"
    | some none => throw "copyuvm: page not present"
    | some (some p) => do
      match ← mappages (v * pgsize) pgsize p.pa true true m d with
      | (m, d, true) => sharePages src n (v + 1) m d
      | (m, d, false) => pure (m, d, false)

/-- `copyuvm(pgdir, sz)` while `proc->sz` is `psz` and `proc->shmtop` is `shmtop`. -/
def copyuvm (psz shmtop sz : ℕ) (src : PageDir) (m : Freelist) :
    Except String (Freelist × Option PageDir) := do
  match ← setupkvm L m with
  | (m, none) => pure (m, none)
  | (m, some d) =>
    match ← copyPages src (rounds 0 sz) 0 m d with
    | (m, d, false) => do
      let m ← freevm L psz m d
      pure (m, none)
    | (m, d, true) =>
      match ← sharePages src (rounds (shmtop / pgsize) usertop) (shmtop / pgsize) m d with
      | (m, d, true) => pure (m, some d)
      | (m, d, false) => do
        let m ← freevm L psz m d
        pure (m, none)

/-! ## Copying into an address space -/

/-- `uva2ka(pgdir, uva)` for an address in the page `v`: the frame, unless the page is absent or
not a user page. A missing page table makes it read through a null pointer. -/
def uva2ka (d : PageDir) (v : ℕ) : Except String (Option ℕ) :=
  match lookup d v with
  | none => throw "uva2ka: null pointer"
  | some none => pure none
  | some (some p) => pure (if p.u then some p.pa else none)

/-- The loop of `copyout` over `n` pages from `v` on; `va` wraps at `2 ^ 32`. -/
def copyoutPages (d : PageDir) : ℕ → ℕ → Except String Bool
  | 0, _ => pure true
  | n + 1, v => do
    match ← uva2ka d v with
    | none => pure false
    | some _ => copyoutPages d n ((v + 1) % 2 ^ 20)

/-- `copyout(pgdir, va, p, len)`: whether it returns 0. -/
def copyout (d : PageDir) (va len : ℕ) : Except String Bool :=
  if len = 0 then pure true
  else copyoutPages d (pageUp (va % pgsize + len)) (va / pgsize)

end CS537.Shm
