import CS537.Lib.Overlay
import CS537.Shm.Exec

/-!
# Stores outside the new image

`loaduvm` stores wherever the new page table points, and that need not be the new image: a program
header may name an address of the kernel, which is mapped to itself. When such a store hits a page
table of a process, the entries become what the file holds.

Most other places are out of reach of the model: what the kernel does with overwritten code, data,
stacks or links of the free list depends on their layout in memory. `Bears` says which stores the
model can follow.
-/

namespace CS537.Shm

/-! ## Page tables as bytes -/

/-- `pa | perm | PTE_P`. -/
def Pte.word (p : Pte) : BitVec 32 :=
  BitVec.ofNat 32 p.pa ||| (if p.w then 2#32 else 0#32) ||| (if p.u then 4#32 else 0#32) ||| 1#32

/-- The entry that a word stands for: `PTE_ADDR`, `PTE_W` and `PTE_U`, if `PTE_P` is set. -/
def Pte.ofWord (w : BitVec 32) : Option Pte :=
  if w.getLsbD 0 then some ⟨w.toNat / pgsize * pgsize, w.getLsbD 1, w.getLsbD 2⟩ else none

namespace PageTable

variable (t : PageTable)

/-- The byte at the offset `j` of the table. -/
def byte (j : ℕ) : BitVec 8 := ((t.entry (j / 4)).elim 0 Pte.word).extractLsb' (8 * (j % 4)) 8

/-- The table after `l` has been stored at its start. -/
def store (l : List (BitVec 8)) : PageTable :=
  let b := overlay t.byte 0 l
  { t with entry := fun i ↦
      if 4 * i < l.length then
        Pte.ofWord (b (4 * i + 3) ++ b (4 * i + 2) ++ b (4 * i + 1) ++ b (4 * i))
      else t.entry i }

end PageTable

/-- The directory after `l` has been stored in the frame `pa`. -/
def PageDir.store (pa : ℕ) (l : List (BitVec 8)) (d : PageDir) : PageDir :=
  { d with pde := fun x ↦ (d.pde x).map fun t ↦ if t.frame = pa then t.store l else t }

/-! ## The stores of `exec` -/

/-- A store that stays below the kernel, where the machine has its video memory and nothing that is
modelled. -/
def Event.Low : Event → Prop
  | .alloc _ => True
  | .store pa _ len => pa + len ≤ 0x100000

instance : DecidablePred Event.Low := fun e ↦
  match e with
  | .alloc _ => isTrue trivial
  | .store _ _ _ => inferInstanceAs (Decidable (_ ≤ _))

/-- The stores of a trace that go to a frame which has not been taken before. -/
def strays : List ℕ → List Event → List Event
  | _, [] => []
  | taken, .alloc r :: tr => strays (r :: taken) tr
  | taken, .store pa off len :: tr =>
    if 0 < len ∧ pa ∉ taken then .store pa off len :: strays taken tr else strays taken tr

namespace Kernel

variable (s : Kernel)

/-- What a store of `exec` does to the page tables of the processes. -/
def suffer (file : Option File) (s : Kernel) : Event → Kernel
  | .alloc _ => s
  | .store pa off len =>
    { s with proc := fun z ↦
        if (s.proc z).state = .unused then s.proc z
        else { s.proc z with
          pgdir := (s.proc z).pgdir.store pa (file.elim [] fun f ↦ f.slice off len) } }

/-- The store ends within the user entries of the first page table of a process. -/
def HitsTable : Event → Prop
  | .alloc _ => False
  | .store pa _ len =>
    len ≤ 4 * 160 ∧ ∃ z, (s.proc z).state ≠ .unused ∧ (s.proc z).pgdir.tab 0 = some pa

instance : DecidablePred s.HitsTable := fun e ↦
  match e with
  | .alloc _ => isFalse id
  | .store _ _ _ => inferInstanceAs (Decidable (_ ∧ _))

/-- The model can follow a store of an `exec` that returns `ret`: it stays below the kernel, or the
call fails and the store hits a page table. -/
def Bears (ret : ℤ) (e : Event) : Prop := e.Low ∨ ret = -1 ∧ s.HitsTable e

instance (ret : ℤ) : DecidablePred (s.Bears ret) := fun _ ↦ inferInstanceAs (Decidable (_ ∨ _))

end Kernel

/-- `exec` and what its stores do outside the new image. -/
def execStray (L : Link) (q : Slot) (file : Option File) (argv : List Arg) (s : Kernel) :
    Option Kernel :=
  match exec L q file argv s with
  | .error _ => none
  | .ok (t, ret, tr) =>
    if ∀ e ∈ strays [] tr, s.Bears ret e then
      some ((strays [] tr).foldl (Kernel.suffer file) t)
    else none

end CS537.Shm
