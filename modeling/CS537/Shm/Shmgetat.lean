import CS537.Shm.RefCount

/-!
# What `shmgetat` comes to

A call for a key that the caller has attached returns the address again; a call that cannot be
served is refused; any other call maps the pages of the region right below `shmtop`. The exception
is a new region for which the frames do not suffice, where `shmgetat` panics although the statement
after the panic would return -1.
-/

open Function

namespace CS537.Shm

variable {L : Link} {s : Kernel} {q : Slot} {key num : BitVec 32} {k : Key}

/-! ## What a call should do -/

namespace Kernel

/-- The pages of the region: as asked for when the region is new, else those it has. -/
def needed (s : Kernel) (k : Key) (num : BitVec 32) : ℕ :=
  if s.shmemCount k = 0 then num.toNat else s.shmemPages k

/-- The pages fit between the size and `shmtop`. -/
def Fits (s : Kernel) (q : Slot) (k : Key) (num : BitVec 32) : Prop :=
  (s.proc q).sz + s.needed k num * pgsize ≤ (s.proc q).shmtop

end Kernel

section Valid

variable (hkey : 0 ≤ key.toInt) (hk : key.toNat = k)

include hkey hk

end Valid

section Attach

variable {fresh : Bool} {n : ℕ} (htop : (s.proc q).shmtop ≤ usertop)
  (hn : n * pgsize ≤ (s.proc q).shmtop)

include htop hn

end Attach

/-! ## The outcome -/

section Outcome

variable (hok : MemOk L s.mem) (hq : (s.proc q).state ≠ .unused)

include hok hq

end Outcome

section OneKey

variable {out : Except String (Kernel × ℤ)} (hk : key.toNat = k)

include hk

end OneKey

end CS537.Shm
