import CS537.Shm.Contents

/-!
# `growproc`: all or nothing

`sbrk` reaches `growproc`, which asks `allocuvm` or `deallocuvm` for the new size and takes the
result 0 for a failure. A size that the request would make negative wraps to a large one, at which
`deallocuvm` does nothing and returns the old size; a request down to 0 unmaps everything and then
counts as a failure. In between the calls keep their word, as far as the pages of the process were
there and its frames are not on the free list or mapped twice.
-/

open Finset Function

namespace CS537.Shm

variable {L : Link} {s t : Kernel} {q : Slot} {n : BitVec 32} {a : ℕ}

/-! ## The condition -/

/-- There is room and memory for the size `a`. -/
def Kernel.Granted (s : Kernel) (q : Slot) (a : ℕ) : Prop :=
  a ≤ (s.proc q).shmtop ∧ pageUp a ≤ pageUp (s.proc q).sz + s.freelist.length

/-- The frames that `q` takes from the free list or gives back on its way to the size `a`. -/
def Kernel.moved (s : Kernel) (q : Slot) (a : ℕ) : List ℕ :=
  s.freelist.take (pageUp a - pageUp (s.proc q).sz) ++
    (List.range' (pageUp a) (pageUp (s.proc q).sz - pageUp a)).filterMap (s.proc q).pgdir.frames

/-! ## Sizes -/

theorem newsz_eq {sz : ℕ} (hsz : sz ≤ usertop) (ha : (a : ℤ) = sz + n.toInt) :
    (sz + n.toNat) % 2 ^ 32 = a := by
  rw [BitVec.toInt_eq_toNat_cond] at ha
  simp only [usertop] at hsz
  split at ha <;> omega

/-- The process has the size `a`; the pages below both sizes are as before, those above the old one
are mapped. -/
structure Resized (s : Kernel) (q : Slot) (a : ℕ) (t : Kernel) : Prop where
  sz : (t.proc q).sz = a
  top : (t.proc q).shmtop = (s.proc q).shmtop
  state : (t.proc q).state = (s.proc q).state
  low : ∀ v, v < pageUp (min (s.proc q).sz a) → (t.proc q).pgdir.pte v = (s.proc q).pgdir.pte v
  new : ∀ v, pageUp (s.proc q).sz ≤ v → v < pageUp a →
    ∃ f, (t.proc q).pgdir.pte v = some ⟨f, true, true⟩

section Call

variable (hok : MemOk L s.mem) (hq : (s.proc q).state ≠ .unused)

include hok hq

theorem growproc_grows (ha : (a : ℤ) = (s.proc q).sz + n.toInt) (hn : 0 < n.toInt)
    (hgrant : s.Granted q a) : ∃ t, growproc L q n s = .ok (t, 0) ∧ Resized s q a t ∧
      Overwrites (s.moved q a) (growprocBytes q n s) := by
  have hp := hok.procs q _ (mem_proc hq)
  have htop : (s.proc q).shmtop ≤ usertop := hp.top_le
  have hspace : Space L (s.proc q).pgdir := hp.space
  have hsz : (s.proc q).sz ≤ usertop := hp.sz_le.trans hp.top_le
  have hnew := newsz_eq hsz ha
  have hlt : (s.proc q).sz < a := by omega
  obtain ⟨hroom, hmem⟩ := hgrant
  have hmono := pageUp_mono hlt.le
  have hmin : min (s.proc q).sz a = (s.proc q).sz := min_eq_left hlt.le
  have hrange : pageUp (s.proc q).sz + rounds (pageUp (s.proc q).sz) a = pageUp a := by
    rw [rounds]
    omega
  have hle := pageUp_le (hroom.trans htop)
  have habsent : ∀ v, pageUp (s.proc q).sz ≤ v →
      v < pageUp (s.proc q).sz + rounds (pageUp (s.proc q).sz) a →
      (s.proc q).pgdir.pte v = none := fun v h1 h2 ↦ hp.absent hroom h1 (by omega)
  obtain ⟨m', d', l, ok, hpages, hmap, htrue, hfalse⟩ :=
    allocPages_mapped s.freelist hspace (by omega) habsent hok.free
  -- there is memory for all the pages
  obtain rfl : ok = true := by
    by_contra hne
    obtain ⟨hlen, rfl⟩ := hfalse (by simpa using hne)
    have htaken := congrArg List.length hmap.taken
    rw [List.append_nil] at htaken
    omega
  have hlen := htrue rfl
  have hgrow : allocuvm L (s.proc q).shmtop (s.proc q).sz a s.freelist (s.proc q).pgdir
      = .ok ⟨m', d', l, a⟩ := by
    rw [allocuvm, if_neg (by omega), if_neg (by omega), hpages]
    rfl
  refine ⟨(s.setFreelist m').setProc q { s.proc q with pgdir := d', sz := a }, ?_, ?_, ?_⟩
  · rw [growproc]
    simp only [if_pos hn, hnew, hgrow, ok_bind]
    rw [if_neg (by omega), Kernel.setProc_self]
    simp only [Kernel.setProc, update_idem]
    rfl
  · constructor
    · rw [Kernel.setProc_self]
    · rw [Kernel.setProc_self]
    · rw [Kernel.setProc_self]
    · intro v hv
      rw [hmin] at hv
      rw [Kernel.setProc_self]
      exact (hmap.pte v).trans (if_neg (by omega))
    · intro v h1 h2
      rw [Kernel.setProc_self]
      refine ⟨l.get ⟨v - pageUp (s.proc q).sz, by omega⟩, ?_⟩
      simp only
      rw [hmap.pte, if_pos (by omega), List.getElem?_eq_getElem (by omega)]
      rfl
  · have hbytes : growprocBytes q n s = allocPagesBytes (rounds (pageUp (s.proc q).sz) a)
        (pageUp (s.proc q).sz) s.freelist (s.proc q).pgdir := by
      funext mem
      rw [growprocBytes]
      simp only [if_pos hn, hnew]
      rw [allocuvmBytes, if_neg (by omega), if_neg (by omega), hpages]
    have hmoved : s.moved q a = s.freelist.take (rounds (pageUp (s.proc q).sz) a) := by
      rw [Kernel.moved, Nat.sub_eq_zero_of_le hmono, rounds]
      simp
    rw [hbytes, hmoved]
    exact allocPagesBytes_overwrites s.freelist hspace (by omega) habsent hok.free

theorem growproc_shrinks (ha : (a : ℤ) = (s.proc q).sz + n.toInt) (hn : n.toInt < 0) :
    ∃ m d, growproc L q n s = .ok ((s.setFreelist m).setProc q
        { s.proc q with pgdir := d, sz := if a = 0 then (s.proc q).sz else a },
        if a = 0 then -1 else 0) ∧
      Freed L (rounds (pageUp a) (s.proc q).sz) (pageUp a) s.freelist (s.proc q).pgdir m d ∧
      Overwrites (s.moved q a) (growprocBytes q n s) := by
  have hp := hok.procs q _ (mem_proc hq)
  have hspace : Space L (s.proc q).pgdir := hp.space
  have hsz : (s.proc q).sz ≤ usertop := hp.sz_le.trans hp.top_le
  have hnew := newsz_eq hsz ha
  have hlt : a < (s.proc q).sz := by omega
  have hmono := pageUp_mono hlt.le
  have hle := pageUp_le hsz
  obtain ⟨m, d, hdealloc, hfreed⟩ := deallocuvm_freed s.freelist hspace hlt hsz
  refine ⟨m, d, ?_, hfreed, ?_⟩
  · have hdealloc' : deallocuvm L (s.proc q).sz a s.freelist (s.proc q).pgdir
        = .ok (m, d, a) := hdealloc
    rw [growproc]
    simp only [if_neg (not_lt.mpr hn.le), if_pos hn, hnew, hdealloc', ok_bind]
    by_cases hzero : a = 0
    · simp only [if_pos hzero]
      rfl
    · simp only [if_neg hzero, Kernel.setProc_self]
      simp only [Kernel.setProc, update_idem]
      rfl
  · have hbytes : growprocBytes q n s = deallocPagesBytes (rounds (pageUp a) (s.proc q).sz)
        (pageUp a) s.freelist (s.proc q).pgdir := by
      funext mem
      rw [growprocBytes]
      simp only [if_neg (not_lt.mpr hn.le), if_pos hn, hnew]
      rw [deallocuvmBytes, if_neg (by omega)]
    have hmoved : s.moved q a = (List.range' (pageUp a) (rounds (pageUp a) (s.proc q).sz)).filterMap
        (s.proc q).pgdir.frames := by
      rw [Kernel.moved, Nat.sub_eq_zero_of_le hmono, rounds]
      simp
    rw [hbytes, hmoved]
    refine deallocPagesBytes_overwrites s.freelist hspace ?_
    rw [rounds]
    omega

end Call

/-! ## All or nothing -/

theorem load_of_frames {p : Proc} {mem : Phys} {x f : ℕ}
    (h : p.pgdir.frames (x / pgsize) = some f) : p.load mem x = some (mem (f + x % pgsize)) := by
  rw [Proc.load, PageDir.translate, h]
  rfl

section Outcome

variable (hok : MemOk L s.mem) (hq : (s.proc q).state ≠ .unused)

include hok hq

/-- A granted size other than 0. -/
theorem growproc_granted (ha : (a : ℤ) = (s.proc q).sz + n.toInt) (hpos : 0 < a)
    (hgrant : s.Granted q a) : ∃ t, growproc L q n s = .ok (t, 0) ∧ Resized s q a t ∧
      Overwrites (s.moved q a) (growprocBytes q n s) := by
  rcases lt_trichotomy n.toInt 0 with hn | hn | hn
  · obtain ⟨m, d, hcall, hfreed, hbytes⟩ := growproc_shrinks hok hq ha hn
    rw [if_neg hpos.ne', if_neg hpos.ne'] at hcall
    have hle : a ≤ (s.proc q).sz := by omega
    refine ⟨_, hcall, ?_, hbytes⟩
    constructor
    · rw [Kernel.setProc_self]
    · rw [Kernel.setProc_self]
    · rw [Kernel.setProc_self]
    · intro v hv
      rw [min_eq_right hle] at hv
      rw [Kernel.setProc_self]
      exact (hfreed.pte v).trans (if_neg (by omega))
    · intro v h1 h2
      have hmono := pageUp_mono hle
      omega
  · obtain rfl : a = (s.proc q).sz := by omega
    have hcall : growproc L q n s = .ok (s, 0) := by
      rw [growproc]
      simp only [hn, lt_irrefl, if_false]
      rfl
    have hbytes : growprocBytes q n s = fun mem ↦ mem := by
      funext mem
      rw [growprocBytes]
      simp only [hn, lt_irrefl, if_false]
    have hmoved : s.moved q (s.proc q).sz = [] := by
      rw [Kernel.moved, Nat.sub_self]
      simp
    refine ⟨s, hcall, ⟨rfl, rfl, rfl, fun _ _ ↦ rfl, fun v h1 h2 ↦ by omega⟩, ?_⟩
    rw [hbytes, hmoved]
    exact .id
  · exact growproc_grows hok hq ha hn hgrant

end Outcome

end CS537.Shm
