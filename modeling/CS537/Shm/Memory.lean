import Mathlib.Algebra.Group.Int.Defs
import Mathlib.Algebra.Group.Nat.Defs
import Mathlib.Logic.Function.Basic

/-!
# Frames and page tables of the shared-memory kernel

The physical allocator of `p3/p3b/xv6/kernel/kalloc.c` and the page-table routines of `vm.c` that
build mappings: `walkpgdir`, `mappages`, `setupkvm` and `inituvm`.

Addresses are natural numbers below `2 ^ 32`, the sums that may wrap are reduced where the code
computes them. A virtual page is its number `va / PGSIZE`, a frame its address. A page directory is
a value: the frames of the directory and of its page tables, and the entries by virtual page. What
the frames contain is not modelled otherwise.

The functions pass the free list and the directory along; `panic` is an error of `Except`.
-/

open Function

namespace CS537.Shm

def pgsize : ℕ := 4096

/-- `USERTOP`, the end of the user address space. -/
def usertop : ℕ := 0xA0000

/-- `PHYSTOP`: physical memory is used up to here. -/
def phystop : ℕ := 0x1000000

/-- `PGROUNDUP(a) / PGSIZE`: the first page that starts at `a` or later. -/
def pageUp (a : ℕ) : ℕ := (a + (pgsize - 1)) / pgsize

/-- `PGROUNDUP(a)`. -/
def pgRoundUp (a : ℕ) : ℕ := pageUp a * pgsize

/-- `a - b` in 32 bits. -/
def sub32 (a b : ℕ) : ℕ := (a + 2 ^ 32 - b) % 2 ^ 32

theorem sub32_of_le {a b : ℕ} (h : b ≤ a) (ha : a < 2 ^ 32) : sub32 a b = a - b := by
  rw [sub32]
  omega

/-- The rounds of the loop `for(a = …; a < e; a += PGSIZE)` that starts at the page `v`. -/
def rounds (v e : ℕ) : ℕ := pageUp e - v

/-- Two addresses of the linked kernel image: `data`, where the writable part starts (`data.S`
aligns it), and `kend`, the symbol `end`. -/
structure Link where
  data : ℕ
  kend : ℕ
  aligned : data % pgsize = 0
  text_lt : 0x100000 < data
  data_le : data ≤ kend
  kend_lt : kend < phystop

/-! ## `kalloc.c` -/

/-- The list `kmem.freelist`, by the addresses of the frames. The code threads it through the frames,
which comes to the same until a frame is freed that is on the list already. -/
abbrev Freelist := List ℕ

/-- The test of `kfree`: what may stand on the free list. -/
def Link.Valid (L : Link) (f : ℕ) : Prop := f % pgsize = 0 ∧ L.kend ≤ f ∧ f < phystop

instance (L : Link) (f : ℕ) : Decidable (L.Valid f) := inferInstanceAs (Decidable (_ ∧ _ ∧ _))

def kfree (L : Link) (v : ℕ) (m : Freelist) : Except String Freelist :=
  if L.Valid v then pure (v :: m) else throw "kfree"

def kalloc : Freelist → Option (ℕ × Freelist)
  | [] => none
  | r :: m => some (r, m)

/-- `kinit`: the loop frees the frames from `PGROUNDUP(end)` on, in order. -/
def kinit (L : Link) : Except String Freelist :=
  (List.range' (pageUp L.kend) (phystop / pgsize - pageUp L.kend)).foldlM
    (fun m v ↦ kfree L (v * pgsize) m) []

/-! ## Page directories -/

/-- An entry with `PTE_P`: the frame, `PTE_W` and `PTE_U`. -/
structure Pte where
  pa : ℕ
  w : Bool
  u : Bool
  deriving DecidableEq, Repr

/-- A page table and the frame it lies in. -/
structure PageTable where
  frame : ℕ
  entry : ℕ → Option Pte

/-- A page directory and the frame it lies in; the frame 0 is the null pointer. -/
structure PageDir where
  frame : ℕ
  pde : ℕ → Option PageTable

namespace PageDir

variable (d : PageDir)

def zero (r : ℕ) : PageDir := ⟨r, fun _ ↦ none⟩

/-- The frame of the page table at the index `x` of the directory. -/
def tab (x : ℕ) : Option ℕ := (d.pde x).map PageTable.frame

/-- The entry for the virtual page `v`. -/
def pte (v : ℕ) : Option Pte := (d.pde (v / 1024)).bind fun t ↦ t.entry (v % 1024)

def setPde (x : ℕ) (t : PageTable) : PageDir := { d with pde := update d.pde x (some t) }

/-- A zeroed page table in the frame `r`. -/
def addTable (x r : ℕ) : PageDir := d.setPde x ⟨r, fun _ ↦ none⟩

/-- `*pte = p`, where `pte` is the address `walkpgdir` has returned for the page `v`. -/
def setPte (v : ℕ) (p : Option Pte) : PageDir :=
  match d.pde (v / 1024) with
  | none => d
  | some t => d.setPde (v / 1024) { t with entry := update t.entry (v % 1024) p }

end PageDir

/-- `walkpgdir(pgdir, va, 0)`: no page table, or the entry. -/
def lookup (d : PageDir) (v : ℕ) : Option (Option Pte) :=
  (d.pde (v / 1024)).map fun t ↦ t.entry (v % 1024)

/-- `walkpgdir(pgdir, va, 1)`: makes sure that the page table exists. -/
def walkpgdir (v : ℕ) (m : Freelist) (d : PageDir) : Option (Freelist × PageDir) :=
  if (d.pde (v / 1024)).isSome then some (m, d)
  else (kalloc m).map fun (r, m) ↦ (m, d.addTable (v / 1024) r)

/-- The loop of `mappages` over `n` pages from `v` on. The last component is false when the
function returns -1. -/
def mapPages (w u : Bool) :
    ℕ → ℕ → ℕ → Freelist → PageDir → Except String (Freelist × PageDir × Bool)
  | 0, _, _, m, d => pure (m, d, true)
  | n + 1, v, pa, m, d =>
    match walkpgdir v m d with
    | none => pure (m, d, false)
    | some (m, d) =>
      if (d.pte v).isSome then throw "remap"
      else mapPages w u n (v + 1) (pa + pgsize) m (d.setPte v (some ⟨pa, w, u⟩))

/-- `mappages(pgdir, la, size, pa, perm)`, from the page of `la` to that of `la + size - 1`. -/
def mappages (la size pa : ℕ) (w u : Bool) (m : Freelist) (d : PageDir) :
    Except String (Freelist × PageDir × Bool) :=
  mapPages w u ((la + size - 1) / pgsize + 1 - la / pgsize) (la / pgsize) pa m d

/-! ## The kernel part -/

/-- The table `kmap`: start, end and whether `PTE_W` is set. The end of the last row is `2 ^ 32`,
which the code writes 0. -/
def kmap (L : Link) : List (ℕ × ℕ × Bool) :=
  [(usertop, 0x100000, true), (0x100000, L.data, false), (L.data, phystop, true),
    (0xFE000000, 2 ^ 32, true)]

/-- The loop of `setupkvm`. -/
def mapKernel : List (ℕ × ℕ × Bool) → Freelist → PageDir →
    Except String (Freelist × Option PageDir)
  | [], m, d => pure (m, some d)
  | (p, e, w) :: k, m, d => do
    match ← mappages p (e - p) p w false m d with
    | (m, d, true) => mapKernel k m d
    | (m, _, false) => pure (m, none)

/-- `setupkvm`; when a page table cannot be allocated the frames taken so far are lost. -/
def setupkvm (L : Link) (m : Freelist) : Except String (Freelist × Option PageDir) :=
  match kalloc m with
  | none => pure (m, none)
  | some (r, m) => mapKernel (kmap L) m (.zero r)

/-- `inituvm(pgdir, init, sz)` for an `init` shorter than a page. -/
def inituvm (m : Freelist) (d : PageDir) : Except String (Freelist × PageDir) :=
  match kalloc m with
  | none => throw "inituvm: memset on a null pointer"
  | some (r, m) => do
    let (m, d, _) ← mappages 0 pgsize r true true m d
    pure (m, d)

/-! ## Simple facts -/

variable {L : Link}

theorem ok_bind {α β : Type} (a : α) (f : α → Except String β) : (Except.ok a >>= f) = f a := rfl

theorem bind_eq_ok {α β : Type} {x : Except String α} {f : α → Except String β} {b : β}
    (h : (x >>= f) = .ok b) : ∃ a, x = .ok a ∧ f a = .ok b := by
  cases x with
  | error e => cases h
  | ok a => exact ⟨a, rfl, h⟩

theorem kfree_of_valid {v : ℕ} (h : L.Valid v) (m : Freelist) : kfree L v m = .ok (v :: m) :=
  if_pos h

namespace PageDir

variable (d : PageDir) {v : ℕ}

@[simp] theorem zero_frame (r : ℕ) : (zero r).frame = r := rfl

@[simp] theorem zero_tab (r x : ℕ) : (zero r).tab x = none := rfl

@[simp] theorem zero_pte (r v : ℕ) : (zero r).pte v = none := rfl

theorem setPde_pde (x : ℕ) (t : PageTable) : (d.setPde x t).pde = update d.pde x (some t) := rfl

theorem setPde_tab (x : ℕ) (t : PageTable) :
    (d.setPde x t).tab = update d.tab x (some t.frame) := by
  funext y
  rw [tab, setPde_pde]
  by_cases h : y = x
  · subst h
    simp
  · rw [update_of_ne h, update_of_ne h, tab]

theorem setPde_pte (x : ℕ) (t : PageTable) (v : ℕ) :
    (d.setPde x t).pte v = if v / 1024 = x then t.entry (v % 1024) else d.pte v := by
  rw [pte, setPde_pde]
  by_cases h : v / 1024 = x
  · subst h
    simp
  · rw [update_of_ne h, if_neg h, pte]

@[simp] theorem addTable_frame (x r : ℕ) : (d.addTable x r).frame = d.frame := rfl

theorem addTable_tab (x r : ℕ) : (d.addTable x r).tab = update d.tab x (some r) :=
  d.setPde_tab x _

/-- A new page table is empty, and there was nothing in its place. -/
theorem addTable_pte {x : ℕ} (h : d.pde x = none) (r v : ℕ) : (d.addTable x r).pte v = d.pte v := by
  rw [addTable, setPde_pte]
  split
  · rename_i hx
    rw [pte, hx, h]
    rfl
  · rfl

@[simp] theorem setPte_frame (p : Option Pte) : (d.setPte v p).frame = d.frame := by
  rw [setPte]
  split <;> rfl

@[simp] theorem setPte_tab (p : Option Pte) : (d.setPte v p).tab = d.tab := by
  rw [setPte]
  split
  · rfl
  · rename_i t ht
    rw [setPde_tab, update_eq_self_iff, tab, ht]
    rfl

theorem isSome_pde_iff (x : ℕ) : (d.pde x).isSome ↔ (d.tab x).isSome := by
  rw [tab, Option.isSome_map]

theorem pde_eq_none_iff (x : ℕ) : d.pde x = none ↔ d.tab x = none := by
  rw [tab, Option.map_eq_none_iff]

theorem setPte_pte (h : (d.tab (v / 1024)).isSome) (p : Option Pte) :
    (d.setPte v p).pte = update d.pte v p := by
  obtain ⟨t, ht⟩ := Option.isSome_iff_exists.mp ((d.isSome_pde_iff _).mpr h)
  funext u
  rw [setPte, ht]
  simp only
  rw [setPde_pte]
  by_cases hv : u = v
  · subst hv
    simp
  · rw [update_of_ne hv]
    split
    · rename_i hx
      have hmod : u % 1024 ≠ v % 1024 := by omega
      rw [pte, hx, ht]
      exact update_of_ne hmod _ _
    · rfl

end PageDir

theorem lookup_of_tab {d : PageDir} {v : ℕ} (h : (d.tab (v / 1024)).isSome) :
    lookup d v = some (d.pte v) := by
  obtain ⟨t, ht⟩ := Option.isSome_iff_exists.mp ((d.isSome_pde_iff _).mpr h)
  rw [lookup, PageDir.pte, ht]
  rfl

theorem lookup_eq_none_iff {d : PageDir} {v : ℕ} : lookup d v = none ↔ d.tab (v / 1024) = none := by
  rw [lookup, Option.map_eq_none_iff, d.pde_eq_none_iff]

theorem walkpgdir_of_tab {d : PageDir} {v : ℕ} (h : (d.tab (v / 1024)).isSome) (m : Freelist) :
    walkpgdir v m d = some (m, d) := if_pos ((d.isSome_pde_iff _).mpr h)

/-- Where the page table exists, mapping one page only sets its entry. -/
theorem mappages_one (pa : ℕ) {d : PageDir} {v : ℕ} {w u : Bool} (h : (d.tab (v / 1024)).isSome)
    (hfree : d.pte v = none) (m : Freelist) :
    mappages (v * pgsize) pgsize pa w u m d = .ok (m, d.setPte v (some ⟨pa, w, u⟩), true) := by
  have hn : (v * pgsize + pgsize - 1) / pgsize + 1 - v * pgsize / pgsize = 1 := by
    simp only [pgsize]
    omega
  have hv : v * pgsize / pgsize = v := Nat.mul_div_cancel v (by decide)
  rw [mappages, hn, hv, mapPages, walkpgdir_of_tab h]
  simp [hfree, mapPages, pure, Except.pure]

end CS537.Shm
