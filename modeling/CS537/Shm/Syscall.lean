import CS537.Shm.Kernel
import Mathlib.Data.BitVec

/-!
# System call arguments

The functions of `p3/p3b/xv6/kernel/syscall.c` and `sysfile.c` that fetch the arguments of a system
call from the stack of the process: `get_shm_bound`, `fetchint`, `argint`, `argptr` and `argfd`.
All comparisons of addresses are unsigned.
-/

namespace CS537.Shm

/-- `NOFILE`. -/
def nofile : ℕ := 16

/-- What a system call reads of its process besides the table entry: the saved `esp`, the words of
user memory and the open files. -/
structure User (F : Type) where
  esp : ℕ
  word : ℕ → BitVec 32
  ofile : Fin nofile → Option F

/-- `get_shm_bound(proc, addr)`. -/
def getShmBound (p : Proc) (addr : ℕ) : ℕ :=
  keys.foldl
    (fun bound k ↦
      if addr < p.shmemVaddr k ∧ p.shmemVaddr k < bound then p.shmemVaddr k else bound)
    usertop

/-- The `bound` of `fetchint`, `fetchstr` and `argptr`. -/
def bound (p : Proc) (addr : ℕ) : ℕ := if addr < p.shmtop then p.sz else getShmBound p addr

variable {F : Type} (p : Proc) (u : User F)

def fetchint (addr : ℕ) : Option (BitVec 32) :=
  if bound p addr ≤ addr ∨ bound p addr < (addr + 4) % 2 ^ 32 then none else some (u.word addr)

def argint (n : ℕ) : Option (BitVec 32) := fetchint p u ((u.esp + 4 + 4 * n) % 2 ^ 32)

/-- `argptr(n, &p, size)`: the pointer; `size` is an `int` that the sum takes as unsigned. -/
def argptr (n : ℕ) (size : BitVec 32) : Option ℕ := do
  let i ← argint p u n
  if bound p i.toNat ≤ i.toNat ∨ bound p i.toNat < (i.toNat + size.toNat) % 2 ^ 32 then none
  else some i.toNat

def argfd (n : ℕ) : Option (Fin nofile × F) := do
  let fd ← argint p u n
  if h : 0 ≤ fd.toInt ∧ fd.toInt < nofile then
    let fd : Fin nofile := ⟨fd.toInt.toNat, by omega⟩
    let f ← u.ofile fd
    some (fd, f)
  else none

/-- The arguments of `sys_read` and `sys_write`: `argfd(0)`, `argint(2, &n)`, `argptr(1, &p, n)`. -/
def rwArgs : Option (Fin nofile × F × ℕ × BitVec 32) := do
  let (fd, f) ← argfd p u 0
  let n ← argint p u 2
  let a ← argptr p u 1 n
  some (fd, f, a, n)

/-! ## Where accepted arguments lie -/

variable {p u}

/-- `getShmBound` is the least base of a region above the address, or `USERTOP`. -/
theorem getShmBound_spec (p : Proc) (addr : ℕ) :
    getShmBound p addr ≤ usertop ∧
    (∀ k, addr < p.shmemVaddr k → getShmBound p addr ≤ p.shmemVaddr k) ∧
    (getShmBound p addr = usertop ∨
      ∃ k, addr < p.shmemVaddr k ∧ getShmBound p addr = p.shmemVaddr k) := by
  have hfold : ∀ (l : List Key) (b : ℕ),
      let r := l.foldl (fun bound k ↦ if addr < p.shmemVaddr k ∧ p.shmemVaddr k < bound
        then p.shmemVaddr k else bound) b
      r ≤ b ∧ (∀ k ∈ l, addr < p.shmemVaddr k → r ≤ p.shmemVaddr k) ∧
        (r = b ∨ ∃ k, addr < p.shmemVaddr k ∧ r = p.shmemVaddr k) := by
    intro l
    induction l with
    | nil => exact fun b ↦ ⟨le_rfl, by simp, .inl rfl⟩
    | cons k l ih =>
      intro b
      rw [List.foldl_cons]
      by_cases hk : addr < p.shmemVaddr k ∧ p.shmemVaddr k < b
      · rw [if_pos hk]
        obtain ⟨hle, hall, hor⟩ := ih (p.shmemVaddr k)
        refine ⟨hle.trans hk.2.le, List.forall_mem_cons.mpr ⟨fun _ ↦ hle, hall⟩, .inr ?_⟩
        exact hor.elim (fun h ↦ ⟨k, hk.1, h⟩) id
      · rw [if_neg hk]
        obtain ⟨hle, hall, hor⟩ := ih b
        exact ⟨hle, List.forall_mem_cons.mpr ⟨fun hlt ↦ by omega, hall⟩, hor⟩
  obtain ⟨hle, hall, hor⟩ := hfold keys usertop
  exact ⟨hle, fun k ↦ hall k (List.mem_finRange k), hor⟩

theorem getShmBound_le (addr : ℕ) : getShmBound p addr ≤ usertop := (getShmBound_spec p addr).1

theorem bound_of_lt {addr : ℕ} (h : addr < p.shmtop) : bound p addr = p.sz := if_pos h

/-- At or above the last region the bound is `USERTOP`. -/
theorem bound_of_vaddr_le {addr : ℕ} (htop : p.shmtop ≤ addr)
    (h : ∀ k, p.shmemVaddr k ≤ addr) : bound p addr = usertop := by
  rw [bound, if_neg (not_lt.mpr htop)]
  refine (getShmBound_spec p addr).2.2.resolve_right ?_
  rintro ⟨k, hk, -⟩
  exact not_lt.mpr (h k) hk

/-- An accepted pointer: a start below the bound, and an end that may have wrapped. -/
theorem argptr_eq_some {n a : ℕ} {size : BitVec 32} (h : argptr p u n size = some a) :
    a < bound p a ∧ (a + size.toNat) % 2 ^ 32 ≤ bound p a := by
  rw [argptr] at h
  obtain ⟨i, -, h⟩ := Option.bind_eq_some_iff.mp h
  split at h
  · cases h
  · cases h
    omega

theorem rwArgs_eq_some {fd : Fin nofile} {f : F} {a : ℕ} {n : BitVec 32}
    (h : rwArgs p u = some (fd, f, a, n)) :
    a < bound p a ∧ (a + n.toNat) % 2 ^ 32 ≤ bound p a := by
  rw [rwArgs] at h
  obtain ⟨x, -, h⟩ := Option.bind_eq_some_iff.mp h
  obtain ⟨m, -, h⟩ := Option.bind_eq_some_iff.mp h
  obtain ⟨b, hb, h⟩ := Option.bind_eq_some_iff.mp h
  cases h
  exact argptr_eq_some hb

end CS537.Shm
