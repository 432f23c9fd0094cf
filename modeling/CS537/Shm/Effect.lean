import CS537.Lib.Tiling
import CS537.Shm.Regions
import CS537.Shm.System

/-!
# The memory of the kernel and what a step does to it

`Mem` keeps what the results on memory speak about: the free list, the address spaces of the
processes that are not UNUSED, and the region tables. Scheduling, `exit` and calls that are refused
leave it alone; `Effect` lists what the other calls can do.
-/

open Finset Function Holding

namespace CS537.Shm

/-- The memory of a process. -/
structure ProcMem where
  sz : ℕ
  pgdir : PageDir
  kstack : ℕ
  shmemVaddr : Key → ℕ
  shmtop : ℕ

/-- The memory of the kernel; `none` is an UNUSED slot. -/
structure Mem where
  freelist : Freelist
  proc : Slot → Option ProcMem
  count : Key → ℤ
  pages : Key → ℕ
  paddr : Key → ℕ → ℕ

def Proc.view (p : Proc) : ProcMem := ⟨p.sz, p.pgdir, p.kstack, p.shmemVaddr, p.shmtop⟩

def Proc.mem (p : Proc) : Option ProcMem := if p.state = .unused then none else some p.view

def Kernel.mem (s : Kernel) : Mem :=
  ⟨s.freelist, fun q ↦ (s.proc q).mem, s.shmemCount, s.shmemPages, s.shmemPaddr⟩

/-! ## The invariant of the layout -/

/-- Where the attached regions start. -/
def ProcMem.base (p : ProcMem) (k : Key) : Option ℕ :=
  if p.shmemVaddr k = 0 then none else some (p.shmemVaddr k)

/-- The length of a region in bytes. -/
def regionLen (pages : Key → ℕ) (k : Key) : ℕ := pages k * pgsize

/-- The layout of one address space: private pages below `sz`, nothing up to `shmtop`, and from
there to `USERTOP` the attached regions, each with its frames in reverse order. -/
structure ProcOk (L : Link) (pages : Key → ℕ) (paddr : Key → ℕ → ℕ) (p : ProcMem) : Prop where
  space : Space L p.pgdir
  kstack : L.Valid p.kstack
  sz_pos : 0 < p.sz
  sz_le : p.sz ≤ p.shmtop
  top_aligned : p.shmtop % pgsize = 0
  aligned : ∀ k, p.shmemVaddr k % pgsize = 0
  tiling : Tiling p.base (regionLen pages) p.shmtop usertop
  gap : ∀ v, pageUp p.sz ≤ v → v < p.shmtop / pgsize → p.pgdir.pte v = none
  entry : ∀ k, p.shmemVaddr k ≠ 0 → ∀ j, j < pages k →
    p.pgdir.pte (p.shmemVaddr k / pgsize + j) = some ⟨paddr k (pages k - 1 - j), true, true⟩

/-- How many processes have the region attached. -/
def Mem.attached (m : Mem) (k : Key) : ℕ :=
  Tally.tally (fun o : Option ProcMem ↦ o.elim 0 fun p ↦ attachedTo p.shmemVaddr k) m.proc

/-- The invariant of the kernel's memory. Entries that are not in use are 0. -/
structure MemOk (L : Link) (m : Mem) : Prop where
  free : ∀ f ∈ m.freelist, L.Valid f
  procs : ∀ q p, m.proc q = some p → ProcOk L m.pages m.paddr p
  pages_le : ∀ k, m.pages k ≤ shmemMaxPages
  region : ∀ k, 0 < m.count k → 0 < m.pages k ∧ ∀ i, i < m.pages k → L.Valid (m.paddr k i)
  spare : ∀ k i, m.count k = 0 ∨ m.pages k ≤ i → m.paddr k i = 0
  attached_le : ∀ k, (m.attached k : ℤ) ≤ m.count k
  count_lt : ∀ k, m.count k < 2 ^ 31

/-- The weight of a slot in `Mem.attached`. -/
def weight (k : Key) (o : Option ProcMem) : ℕ := o.elim 0 fun p ↦ attachedTo p.shmemVaddr k

theorem weight_le_attached (m : Mem) (q : Slot) (k : Key) :
    weight k (m.proc q) ≤ m.attached k := Tally.le_tally (weight k) m.proc q

theorem attachedTo_of_ne {v : Key → ℕ} {k : Key} (h : v k ≠ 0) : attachedTo v k = 1 := if_pos h

/-- The counter of an attached region is positive. -/
theorem MemOk.count_pos {m : Mem} (h : MemOk L m) {q : Slot} {p : ProcMem} (hq : m.proc q = some p)
    {k : Key} (hk : p.shmemVaddr k ≠ 0) : 0 < m.count k := by
  have h1 := weight_le_attached m q k
  have h2 := h.attached_le k
  have h3 : weight k (m.proc q) = 1 := by
    rw [hq]
    exact attachedTo_of_ne hk
  omega

/-! ## Effects -/

/-- Counters and rows after the regions `v` have been left. -/
def Mem.leave (m : Mem) (v : Key → ℕ) : Mem :=
  { m with
    count := fun k ↦ m.count k - attachedTo v k
    paddr := fun k i ↦ if LastRef v m.count k ∧ i < m.pages k then 0 else m.paddr k i }

/-- The frames `l` of the regions to which leaving `v` drops the last reference. -/
structure LeaveFrees (L : Link) (m : Mem) (v : Key → ℕ) (l : List ℕ) : Prop where
  count : ∀ f,
    l.count f = ∑ k, if LastRef v m.count k then rowHolds (m.paddr k) (m.pages k) f else 0
  valid : ∀ f ∈ l, L.Valid f

/-- The frames `l` that `freevm` gives back. -/
structure DirFrees (L : Link) (sz : ℕ) (d : PageDir) (l : List ℕ) : Prop where
  count : ∀ f, l.count f = [d.frame].count f + d.tables f + held (range (pageUp sz)) d.frames f
  valid : ∀ f ∈ l, L.Valid f

/-- An image that `exec` has built from frames of `m`. -/
structure Built (L : Link) (shmtop sz : ℕ) (m m' : Freelist) (d : PageDir) : Prop where
  space : Space L d
  sz_pos : 0 < sz
  sz_le : sz ≤ shmtop
  gap : ∀ v, pageUp sz ≤ v → v < 160 → d.pte v = none
  count : ∀ f, m'.count f + [d.frame].count f + d.tables f + held (range (pageUp sz)) d.frames f
    = m.count f
  valid : ∀ f ∈ m', L.Valid f

/-- A free list with nothing new in it. -/
structure Shrunk (L : Link) (m m' : Freelist) : Prop where
  count : ∀ f, m'.count f ≤ m.count f
  valid : ∀ f ∈ m', L.Valid f

/-- `Effect L c a m m'`: what a step with the label `a` can do to the memory. The slot `c` is the
child that a `wait` reaps. -/
inductive Effect (L : Link) (c : Option Slot) : Act → Mem → Mem → Prop
  | idle (a : Act) (m : Mem) : Effect L c a m m
  /-- `copyuvm` has failed: the counters stay raised. -/
  | forkFail {q np : Slot} {m : Mem} {p : ProcMem} {r : ℕ} {m₁ fl : Freelist} :
      m.proc q = some p → m.proc np = none → m.freelist = r :: m₁ →
      m₁.length < 13 + pageUp p.sz → Shrunk L m.freelist fl →
      (∀ k, m.count k + attachedTo p.shmemVaddr k < 2 ^ 31) →
      Effect L c (.fork q) m
        { m with
          freelist := fl
          count := fun k ↦ m.count k + attachedTo p.shmemVaddr k }
  | forked {q np : Slot} {m : Mem} {p : ProcMem} {r : ℕ} {m₁ fl : Freelist} {d : PageDir} :
      m.proc q = some p → m.proc np = none → m.freelist = r :: m₁ →
      Copied L p.shmtop p.sz p.pgdir m₁ fl d →
      (∀ k, m.count k + attachedTo p.shmemVaddr k < 2 ^ 31) →
      Effect L c (.fork q) m
        { m with
          freelist := fl
          proc := update m.proc np (some { p with pgdir := d, kstack := r })
          count := fun k ↦ m.count k + attachedTo p.shmemVaddr k }
  | execFail {q : Slot} {file : Option File} {argv : List Arg} {m : Mem} {fl : Freelist} :
      Shrunk L m.freelist fl → Effect L c (.exec q file argv) m { m with freelist := fl }
  | execed {q : Slot} {file : Option File} {argv : List Arg} {m : Mem} {p : ProcMem} {sz : ℕ}
      {fl l l' : Freelist} {d : PageDir} : m.proc q = some p →
      Built L p.shmtop sz m.freelist fl d → LeaveFrees L m p.shmemVaddr l →
      DirFrees L sz p.pgdir l' →
      Effect L c (.exec q file argv) m
        { m.leave p.shmemVaddr with
          freelist := l' ++ (l ++ fl)
          proc := update m.proc q (some ⟨sz, d, p.kstack, fun _ ↦ 0, usertop⟩) }
  | reaped {q z : Slot} {m : Mem} {p ch : ProcMem} {l l' : Freelist} : c = some z →
      m.proc q = some p → m.proc z = some ch → LeaveFrees L m ch.shmemVaddr l →
      DirFrees L p.sz ch.pgdir l' →
      Effect L c (.wait q) m
        { m.leave ch.shmemVaddr with
          freelist := l ++ (l' ++ ch.kstack :: m.freelist)
          proc := update m.proc z none }
  | grown {q : Slot} {n : BitVec 32} {m : Mem} {p : ProcMem} {newsz : ℕ} {l : List ℕ}
      {fl : Freelist} {d : PageDir} : m.proc q = some p → newsz ≤ p.shmtop → p.sz ≤ newsz →
      Mapped (pageUp p.sz) l m.freelist p.pgdir fl d →
      l.length = pageUp newsz - pageUp p.sz →
      Effect L c (.sbrk q n) m
        { m with
          freelist := fl
          proc := update m.proc q (some { p with pgdir := d, sz := newsz }) }
  | growFull {q : Slot} {n : BitVec 32} {m : Mem} {p : ProcMem} {fl : Freelist} {d : PageDir} :
      m.proc q = some p → d.frame = p.pgdir.frame → d.tab = p.pgdir.tab → d.pte = p.pgdir.pte →
      (∀ f, fl.count f = m.freelist.count f) →
      Effect L c (.sbrk q n) m
        { m with
          freelist := fl
          proc := update m.proc q (some { p with pgdir := d }) }
  /-- A request down to 0 unmaps the pages and leaves the size. -/
  | shrunk {q : Slot} {n : BitVec 32} {m : Mem} {p : ProcMem} {newsz : ℕ} {fl : Freelist}
      {d : PageDir} : m.proc q = some p → newsz < p.sz →
      Freed L (rounds (pageUp newsz) p.sz) (pageUp newsz) m.freelist p.pgdir fl d →
      Effect L c (.sbrk q n) m
        { m with
          freelist := fl
          proc := update m.proc q
            (some { p with pgdir := d, sz := if newsz = 0 then p.sz else newsz }) }
  | attached {q : Slot} {key num : BitVec 32} {m : Mem} {p : ProcMem} {fresh : Bool} {k : Key}
      {n : ℕ} {row : ℕ → ℕ} {fl : Freelist} {d : PageDir} : m.proc q = some p →
      p.shmemVaddr k = 0 → (fresh = true → m.count k = 0 ∧ n ≤ shmemMaxPages) →
      (fresh = false → m.count k ≠ 0 ∧ n = m.pages k) → 0 < n → p.sz + n * pgsize ≤ p.shmtop →
      RowFor L fresh n 0 m.freelist (m.paddr k) fl row →
      d.frame = p.pgdir.frame → d.tab = p.pgdir.tab →
      (∀ u, d.pte u = if p.shmtop / pgsize - n ≤ u ∧ u < p.shmtop / pgsize then
        some ⟨row (p.shmtop / pgsize - 1 - u), true, true⟩ else p.pgdir.pte u) →
      m.count k + 1 < 2 ^ 31 →
      Effect L c (.shmgetat q key num) m
        { freelist := fl
          proc := update m.proc q (some { p with
            pgdir := d
            shmemVaddr := update p.shmemVaddr k (p.shmtop - n * pgsize)
            shmtop := p.shmtop - n * pgsize })
          count := update m.count k (m.count k + 1)
          pages := update m.pages k n
          paddr := update m.paddr k row }

/-- The child that the step reaps. -/
def Act.victim (a : Act) (s : Kernel) : Option Slot :=
  match a with
  | .wait q => zombieChild q s
  | _ => none

/-! ## Views of updates -/

theorem mem_of_ne_unused {p : Proc} (h : p.state ≠ .unused) : p.mem = some p.view := if_neg h

theorem mem_of_unused {p : Proc} (h : p.state = .unused) : p.mem = none := if_pos h

/-- A change of the other fields of one process does not show. -/
theorem mem_setProc {s : Kernel} {q : Slot} {p : Proc} (h : p.mem = (s.proc q).mem) :
    (s.setProc q p).mem = s.mem := by
  rw [Kernel.mem, Kernel.mem]
  congr 1
  funext r
  by_cases hr : r = q
  · subst hr
    rw [s.setProc_self, h]
  · rw [s.setProc_of_ne p hr]

theorem proc_mem_setProc (s : Kernel) (q : Slot) (p : Proc) :
    (fun r ↦ ((s.setProc q p).proc r).mem) = update (fun r ↦ (s.proc r).mem) q p.mem := by
  funext r
  by_cases hr : r = q
  · subst hr
    rw [s.setProc_self, update_self]
  · rw [s.setProc_of_ne p hr, update_of_ne hr]

theorem mem_proc {s : Kernel} {q : Slot} (hq : (s.proc q).state ≠ .unused) :
    s.mem.proc q = some (s.proc q).view := mem_of_ne_unused hq

theorem view_of_mem {s : Kernel} {q : Slot} {p : ProcMem} (h : s.mem.proc q = some p) :
    (s.proc q).state ≠ .unused ∧ (s.proc q).view = p := by
  obtain ⟨hq, hp⟩ := Option.ite_none_left_eq_some.mp h
  exact ⟨hq, Option.some.inj hp⟩

theorem mem_setProc_of_ne {s : Kernel} {q : Slot} {p : Proc} (hp : p.state ≠ .unused) :
    (s.setProc q p).mem = { s.mem with proc := update s.mem.proc q (some p.view) } := by
  rw [Kernel.mem, proc_mem_setProc, mem_of_ne_unused hp]
  rfl

/-- Two updates of one process, with updates of the tables between them. -/
theorem mem_of_proc {s t : Kernel} {q : Slot} (hq : (t.proc q).state ≠ .unused)
    (h : ∀ r, r ≠ q → t.proc r = s.proc r) :
    t.mem = ⟨t.freelist, update s.mem.proc q (some (t.proc q).view), t.shmemCount, t.shmemPages,
      t.shmemPaddr⟩ := by
  rw [Kernel.mem]
  congr 1
  funext r
  by_cases hr : r = q
  · subst hr
    rw [update_self, mem_of_ne_unused hq]
  · rw [update_of_ne hr, h r hr]
    rfl

/-- Updates of one process that end in UNUSED. -/
theorem mem_of_proc_unused {s t : Kernel} {q : Slot} (hq : (t.proc q).state = .unused)
    (h : ∀ r, r ≠ q → t.proc r = s.proc r) :
    t.mem = ⟨t.freelist, update s.mem.proc q none, t.shmemCount, t.shmemPages, t.shmemPaddr⟩ := by
  rw [Kernel.mem]
  congr 1
  funext r
  by_cases hr : r = q
  · subst hr
    rw [update_self, mem_of_unused hq]
  · rw [update_of_ne hr, h r hr]
    rfl

/-- A process that is not UNUSED changes to another state, still not UNUSED. -/
theorem mem_setState {s : Kernel} {q : Slot} {p : Proc} (h : (s.proc q).state ≠ .unused)
    (hp : p.state ≠ .unused) (hview : p.view = (s.proc q).view) : (s.setProc q p).mem = s.mem :=
  mem_setProc (by rw [mem_of_ne_unused hp, mem_of_ne_unused h, hview])

end CS537.Shm
