import CS537.Shm.Growproc

/-!
# The argument checks are exact

In a process whose regions tile the addresses from `shmtop` to `USERTOP`, the bound that `fetchint`,
`fetchstr` and `argptr` compute for an address is the end of the segment that contains it: the heap,
from 0 to the size, or an attached region. So their comparisons decide whether the argument lies in
one segment. None of them asks whether the pages are there: `fetchint` and `fetchstr` then fault on
an absent one.
-/

open Interference

namespace CS537.Shm

variable {pages : Key → ℕ} {p : Proc} {mem : Phys} {a e : ℕ}

/-! ## Segments -/

/-- The size is at most `shmtop`, and the attached regions tile what is above. -/
structure LaidOut (pages : Key → ℕ) (p : Proc) : Prop where
  sz_le : p.sz ≤ p.shmtop
  tiling : Tiling p.view.base (regionLen pages) p.shmtop usertop

/-- The heap, and the attached regions. -/
inductive Segment (pages : Key → ℕ) (p : Proc) : ℕ → ℕ → Prop
  | heap : Segment pages p 0 p.sz
  | region {k : Key} (hk : p.shmemVaddr k ≠ 0) :
    Segment pages p (p.shmemVaddr k) (p.shmemVaddr k + regionLen pages k)

/-- The addresses from `a` to `e` lie in one segment. -/
def InSegment (pages : Key → ℕ) (p : Proc) (a e : ℕ) : Prop :=
  ∃ lo hi, Segment pages p lo hi ∧ lo ≤ a ∧ a < hi ∧ e ≤ hi

theorem InSegment.mono {e' : ℕ} (h : InSegment pages p a e) (he : e' ≤ e) :
    InSegment pages p a e' := by
  obtain ⟨lo, hi, hseg, hlo, ha, hhi⟩ := h
  exact ⟨lo, hi, hseg, hlo, ha, he.trans hhi⟩

namespace LaidOut

variable (h : LaidOut pages p)

include h

theorem bound_le (a : ℕ) : bound p a ≤ usertop := by
  rw [bound]
  split
  · exact h.sz_le.trans h.tiling.le
  · exact getShmBound_le a

/-- The nearest base above an address of a region is the end of the region, unless the region ends
at `USERTOP`. -/
theorem getShmBound_region {k : Key} (hk : p.shmemVaddr k ≠ 0) (h1 : p.shmemVaddr k ≤ a)
    (h2 : a < p.shmemVaddr k + regionLen pages k) :
    getShmBound p a = p.shmemVaddr k + regionLen pages k := by
  have hbase := base_view k (Proc.mem_attachedKeys.mpr hk)
  obtain ⟨hlow, hfit, -⟩ := h.tiling.fits k _ hbase
  obtain ⟨hle, hall, hor⟩ := getShmBound_spec p a
  apply le_antisymm
  · by_cases hend : p.shmemVaddr k + regionLen pages k < usertop
    · -- the block that covers the end of the region starts there
      obtain ⟨j, b, hj, h3, h4⟩ := h.tiling.cover (p.shmemVaddr k + regionLen pages k)
        (by omega) hend
      have hjk : k ≠ j := by
        rintro rfl
        obtain rfl := Option.some.inj (hbase.symm.trans hj)
        omega
      have hsep := h.tiling.disjoint k j _ _ hjk hbase hj
      obtain ⟨-, rfl⟩ := base_view_eq_some hj
      have hbound := hall j (by omega)
      omega
    · omega
  · rcases hor with htop | ⟨j, hj, heq⟩
    · rw [htop]
      exact hfit
    · have hjk : k ≠ j := by
        rintro rfl
        omega
      have hj0 : p.shmemVaddr j ≠ 0 := by omega
      have hsep := h.tiling.disjoint k j _ _ hjk hbase (base_view j (Proc.mem_attachedKeys.mpr hj0))
      omega

theorem bound_of_segment {lo hi : ℕ} (hs : Segment pages p lo hi) (h1 : lo ≤ a) (h2 : a < hi) :
    bound p a = hi := by
  cases hs with
  | heap => exact bound_of_lt (h2.trans_le h.sz_le)
  | @region k hk =>
    have hlow := (h.tiling.fits _ _ (base_view k (Proc.mem_attachedKeys.mpr hk))).1
    rw [bound, if_neg (not_lt.mpr (hlow.trans h1))]
    exact h.getShmBound_region hk h1 h2

/-- An address below its bound lies in the segment that the bound ends. -/
theorem exists_segment (ha : a < bound p a) : ∃ lo, Segment pages p lo (bound p a) ∧ lo ≤ a := by
  by_cases htop : a < p.shmtop
  · rw [bound_of_lt htop] at ha ⊢
    exact ⟨0, .heap, Nat.zero_le a⟩
  · obtain ⟨k, b, hk, h1, h2⟩ := h.tiling.cover a (not_lt.mp htop) (ha.trans_le (h.bound_le a))
    obtain ⟨hmem, rfl⟩ := base_view_eq_some hk
    have hseg : Segment pages p _ _ := .region (Proc.mem_attachedKeys.mp hmem)
    rw [h.bound_of_segment hseg h1 h2]
    exact ⟨_, hseg, h1⟩

/-- **What the two comparisons decide.** -/
theorem below_bound_iff : a < bound p a ∧ e ≤ bound p a ↔ InSegment pages p a e := by
  constructor
  · rintro ⟨ha, he⟩
    obtain ⟨lo, hseg, hlo⟩ := h.exists_segment ha
    exact ⟨lo, bound p a, hseg, hlo, ha, he⟩
  · rintro ⟨lo, hi, hseg, hlo, ha, he⟩
    rw [h.bound_of_segment hseg hlo ha]
    exact ⟨ha, he⟩

end LaidOut

/-! ## `fetchint` and `argptr` -/

section Words

variable (h : LaidOut pages p)

include h

/-- No sum of an accepted address and a size wraps. -/
theorem LaidOut.refuses_iff {n : ℕ} (hn : n < 2 ^ 31) :
    bound p a ≤ a ∨ bound p a < (a + n) % 2 ^ 32 ↔ ¬InSegment pages p a (a + n) := by
  have hle := h.bound_le a
  simp only [usertop] at hle
  rw [← h.below_bound_iff]
  omega

theorem eval_fetchint_refused (ha : ¬InSegment pages p a (a + 4)) :
    (Code.fetchint a : Code p _).eval mem = some none := by
  rw [Code.fetchint, if_pos ((h.refuses_iff (by decide)).mpr ha)]
  rfl

/-- An accepted word is read, through the page table. -/
theorem eval_fetchint (ha : InSegment pages p a (a + 4)) :
    (Code.fetchint a : Code p _).eval mem = (p.loadWord mem a).map some := by
  rw [Code.fetchint, if_neg fun hr ↦ (h.refuses_iff (by decide)).mp hr ha, Prog.eval_look]
  cases p.loadWord mem a <;> rfl

theorem fetchint_refused_iff :
    (Code.fetchint a : Code p _).eval mem = some none ↔ ¬InSegment pages p a (a + 4) := by
  by_cases ha : InSegment pages p a (a + 4)
  · rw [eval_fetchint h ha]
    simp [ha]
  · exact iff_of_true (eval_fetchint_refused h ha) ha

theorem fetchint_accepts_iff (w : BitVec 32) :
    (Code.fetchint a : Code p _).eval mem = some (some w) ↔
      InSegment pages p a (a + 4) ∧ p.loadWord mem a = some w := by
  by_cases ha : InSegment pages p a (a + 4)
  · rw [eval_fetchint h ha]
    simp [ha]
  · rw [eval_fetchint_refused h ha]
    simp [ha]

/-- With the pointer word `i`, and a size that is not negative. -/
theorem argptr_eq {F : Type} {u : User F} {n : ℕ} {i size : BitVec 32}
    (hi : argint p u n = some i) (hsize : 0 ≤ size.toInt) :
    (argptr p u n size = some i.toNat ↔ InSegment pages p i.toNat (i.toNat + size.toNat)) ∧
    (argptr p u n size = none ↔ ¬InSegment pages p i.toNat (i.toNat + size.toNat)) := by
  have hlt : size.toNat < 2 ^ 31 := by
    rw [BitVec.toInt_eq_toNat_cond] at hsize
    split at hsize <;> omega
  have hiff := h.refuses_iff (a := i.toNat) hlt
  rw [argptr, hi, Option.bind_eq_bind, Option.bind_some]
  by_cases ha : InSegment pages p i.toNat (i.toNat + size.toNat)
  · rw [if_neg fun hr ↦ hiff.mp hr ha]
    simp [ha]
  · rw [if_pos (hiff.mpr ha)]
    simp [ha]

end Words

/-! ## `fetchstr` -/

/-- A byte that is there and is not NUL. -/
def NonNul (p : Proc) (mem : Phys) (x : ℕ) : Prop := ∃ b, p.load mem x = some b ∧ b ≠ 0

/-- One round of the loop. -/
theorem eval_scan_succ (s : Str p) (n i : ℕ) : (Code.scan s (n + 1) i).eval mem =
    (p.load mem (s.addr + i)).bind fun b ↦
      if b = 0 then some (some i) else (Code.scan s n (i + 1)).eval mem := by
  rw [Code.scan, Prog.eval_look, Prog.eval_bind]
  cases p.load mem (s.addr + i) with
  | none => rfl
  | some b =>
    change (if b = 0 then pure (some i) else Code.scan s n (i + 1) : Code p _).eval mem = _
    rw [Option.bind_some]
    split <;> rfl

theorem scan_accepts_iff (s : Str p) (n i d : ℕ) :
    (Code.scan s n i).eval mem = some (some d) ↔ i ≤ d ∧ d < i + n ∧
      p.load mem (s.addr + d) = some 0 ∧ ∀ j, i ≤ j → j < d → NonNul p mem (s.addr + j) := by
  induction n generalizing i with
  | zero =>
    refine iff_of_false (fun h ↦ ?_) fun h ↦ by omega
    cases h
  | succ n ih =>
    rw [eval_scan_succ]
    cases hload : p.load mem (s.addr + i) with
    | none =>
      refine iff_of_false (by simp) ?_
      rintro ⟨h1, -, h3, h4⟩
      rcases Nat.eq_or_lt_of_le h1 with rfl | hlt
      · rw [hload] at h3
        cases h3
      · obtain ⟨b, hb, -⟩ := h4 i le_rfl hlt
        rw [hload] at hb
        cases hb
    | some b =>
      rw [Option.bind_some]
      by_cases hb : b = 0
      · rw [if_pos hb, Option.some.injEq, Option.some.injEq]
        subst hb
        constructor
        · rintro rfl
          exact ⟨le_rfl, by omega, hload, fun j h1 h2 ↦ by omega⟩
        -- a later NUL would have a NUL before it
        · rintro ⟨h1, -, -, h4⟩
          by_contra hne
          obtain ⟨b, hb, hb0⟩ := h4 i le_rfl (by omega)
          exact hb0 (Option.some.inj (hb.symm.trans hload))
      · rw [if_neg hb, ih]
        constructor
        · rintro ⟨h1, h2, h3, h4⟩
          refine ⟨by omega, by omega, h3, fun j hj hjd ↦ ?_⟩
          rcases Nat.eq_or_lt_of_le hj with rfl | hlt
          · exact ⟨b, hload, hb⟩
          · exact h4 j hlt hjd
        · rintro ⟨h1, h2, h3, h4⟩
          have hne : d ≠ i := by
            rintro rfl
            exact hb (Option.some.inj (hload.symm.trans h3))
          exact ⟨by omega, by omega, h3, fun j hj hjd ↦ h4 j (by omega) hjd⟩

theorem scan_refuses_iff (s : Str p) (n i : ℕ) :
    (Code.scan s n i).eval mem = some none ↔
      ∀ j, i ≤ j → j < i + n → NonNul p mem (s.addr + j) := by
  induction n generalizing i with
  | zero => exact iff_of_true rfl fun j h1 h2 ↦ by omega
  | succ n ih =>
    rw [eval_scan_succ]
    cases hload : p.load mem (s.addr + i) with
    | none =>
      refine iff_of_false (by simp) fun h ↦ ?_
      obtain ⟨b, hb, -⟩ := h i le_rfl (by omega)
      rw [hload] at hb
      cases hb
    | some b =>
      rw [Option.bind_some]
      by_cases hb : b = 0
      · rw [if_pos hb]
        refine iff_of_false (by simp) fun h ↦ ?_
        obtain ⟨b', hb', hne⟩ := h i le_rfl (by omega)
        exact hne ((Option.some.inj (hb'.symm.trans hload)).trans hb)
      · rw [if_neg hb, ih]
        constructor
        · intro h j hj hjd
          rcases Nat.eq_or_lt_of_le hj with rfl | hlt
          · exact ⟨b, hload, hb⟩
          · exact h j hlt (by omega)
        · exact fun h j hj hjd ↦ h j (by omega) (by omega)

theorem eval_fetchstr (ha : a < bound p a) : (Code.fetchstr a : Code p _).eval mem =
    ((Code.scan ⟨a, ha⟩ (bound p a - a) 0).eval mem).map
      fun len ↦ len.map fun len ↦ (⟨a, ha⟩, len) := by
  rw [Code.fetchstr, dif_neg (not_le.mpr ha), Prog.eval_bind]
  cases (Code.scan ⟨a, ha⟩ (bound p a - a) 0 : Code p _).eval mem <;> rfl

section Strings

variable (h : LaidOut pages p)

include h

theorem fetchstr_accepts_iff (s : Str p) (d : ℕ) :
    (Code.fetchstr a : Code p _).eval mem = some (some (s, d)) ↔ s.addr = a ∧
      InSegment pages p a (a + d + 1) ∧ p.load mem (a + d) = some 0 ∧
      ∀ i, i < d → NonNul p mem (a + i) := by
  by_cases ha : a < bound p a
  · rw [eval_fetchstr ha, ← h.below_bound_iff]
    constructor
    · intro hs
      obtain ⟨len, hlen, hmap⟩ := Option.map_eq_some_iff.mp hs
      obtain ⟨d', rfl, heq⟩ := Option.map_eq_some_iff.mp hmap
      obtain ⟨rfl, rfl⟩ := Prod.mk.inj heq
      obtain ⟨-, h2, h3, h4⟩ := (scan_accepts_iff _ _ _ _).mp hlen
      exact ⟨rfl, ⟨ha, by omega⟩, h3, fun i hi ↦ h4 i (Nat.zero_le i) hi⟩
    · rintro ⟨rfl, ⟨-, h2⟩, h3, h4⟩
      have hscan := (@scan_accepts_iff p mem ⟨s.addr, ha⟩ (bound p s.addr - s.addr) 0 d).mpr
        ⟨Nat.zero_le d, by omega, h3, fun j _ hj ↦ h4 j hj⟩
      rw [hscan]
      rfl
  · have hnone : (Code.fetchstr a : Code p _).eval mem = some none := by
      rw [Code.fetchstr, dif_pos (not_lt.mp ha)]
      rfl
    rw [hnone]
    refine iff_of_false (by simp) ?_
    rintro ⟨-, hin, -⟩
    exact ha (h.below_bound_iff.mpr hin).1

theorem fetchstr_refuses_iff :
    (Code.fetchstr a : Code p _).eval mem = some none ↔
      ∀ x, a ≤ x → InSegment pages p a (x + 1) → NonNul p mem x := by
  by_cases ha : a < bound p a
  · rw [eval_fetchstr ha, Option.map_eq_some_iff]
    simp only [Option.map_eq_none_iff, exists_eq_right, scan_refuses_iff]
    constructor
    · intro hall x hx hin
      have hlt := (h.below_bound_iff.mpr hin).2
      have hbyte := hall (x - a) (Nat.zero_le _) (by omega)
      rwa [Nat.add_sub_cancel' hx] at hbyte
    · intro hall j _ hj
      exact hall (a + j) (by omega) (h.below_bound_iff.mp ⟨ha, by omega⟩)
  · refine iff_of_true ?_ fun x _ hin ↦ absurd (h.below_bound_iff.mpr hin).1 ha
    rw [Code.fetchstr, dif_pos (not_lt.mp ha)]
    rfl

/-- Where the bytes up to the end of the segment are there, a NUL is all that matters. -/
theorem fetchstr_accepts_present
    (hpresent : ∀ x, a ≤ x → InSegment pages p a (x + 1) → (p.load mem x).isSome) :
    (∃ s d, (Code.fetchstr a : Code p _).eval mem = some (some (s, d))) ↔
      ∃ x, a ≤ x ∧ InSegment pages p a (x + 1) ∧ p.load mem x = some 0 := by
  constructor
  · rintro ⟨s, d, hs⟩
    obtain ⟨-, hin, hnul, -⟩ := (fetchstr_accepts_iff h s d).mp hs
    exact ⟨a + d, Nat.le_add_right a d, hin, hnul⟩
  · rintro ⟨x, hx, hin, hnul⟩
    have hex : ∃ d, p.load mem (a + d) = some 0 := ⟨x - a, by rwa [Nat.add_sub_cancel' hx]⟩
    have hfirst := Nat.find_min' (m := x - a) hex (by rwa [Nat.add_sub_cancel' hx])
    have ha := (h.below_bound_iff.mpr hin).1
    refine ⟨⟨a, ha⟩, Nat.find hex, (fetchstr_accepts_iff h _ _).mpr
      ⟨rfl, hin.mono (by omega), Nat.find_spec hex, fun i hi ↦ ?_⟩⟩
    obtain ⟨b, hb⟩ := Option.isSome_iff_exists.mp
      (hpresent (a + i) (Nat.le_add_right a i) (hin.mono (by omega)))
    refine ⟨b, hb, fun hzero ↦ Nat.find_min hex hi ?_⟩
    rw [hb, hzero]

end Strings

/-! ## The checks together -/

/-- What the three functions make of the address `a`; a page that is looked at and absent is a
fault, and they return nothing. -/
structure ExactChecks (pages : Key → ℕ) (p : Proc) (mem : Phys) (a : BitVec 32) : Prop where
  fetchint_refuses : (Code.fetchint a.toNat : Code p _).eval mem = some none ↔
    ¬InSegment pages p a.toNat (a.toNat + 4)
  fetchint_accepts : ∀ w, (Code.fetchint a.toNat : Code p _).eval mem = some (some w) ↔
    InSegment pages p a.toNat (a.toNat + 4) ∧ p.loadWord mem a.toNat = some w
  /-- with the word `a` as the argument `n` -/
  argptr : ∀ (F : Type) (u : User F) (n : ℕ) (size : BitVec 32), argint p u n = some a →
    0 ≤ size.toInt →
      (argptr p u n size = some a.toNat ↔ InSegment pages p a.toNat (a.toNat + size.toNat)) ∧
      (argptr p u n size = none ↔ ¬InSegment pages p a.toNat (a.toNat + size.toNat))
  fetchstr_refuses : (Code.fetchstr a.toNat : Code p _).eval mem = some none ↔
    ∀ x, a.toNat ≤ x → InSegment pages p a.toNat (x + 1) → NonNul p mem x
  fetchstr_accepts : ∀ s d, (Code.fetchstr a.toNat : Code p _).eval mem = some (some (s, d)) ↔
    s.addr = a.toNat ∧ InSegment pages p a.toNat (a.toNat + d + 1) ∧
      p.load mem (a.toNat + d) = some 0 ∧ ∀ i, i < d → NonNul p mem (a.toNat + i)
  /-- when the rest of the segment is there -/
  fetchstr_present : (∀ x, a.toNat ≤ x → InSegment pages p a.toNat (x + 1) →
      (p.load mem x).isSome) →
    ((∃ s d, (Code.fetchstr a.toNat : Code p _).eval mem = some (some (s, d))) ↔
      ∃ x, a.toNat ≤ x ∧ InSegment pages p a.toNat (x + 1) ∧ p.load mem x = some 0)

/-- **The argument checks are exact.** For every process whose regions tile the shared area, every
contents of memory and every address. -/
theorem argument_checks_exact (pages : Key → ℕ) (p : Proc) (mem : Phys) (a : BitVec 32)
    (h : LaidOut pages p) : ExactChecks pages p mem a where
  fetchint_refuses := fetchint_refused_iff h
  fetchint_accepts := fetchint_accepts_iff h
  argptr := fun _ _ _ _ ha hsize ↦ argptr_eq h ha hsize
  fetchstr_refuses := fetchstr_refuses_iff h
  fetchstr_accepts := fetchstr_accepts_iff h
  fetchstr_present := fetchstr_accepts_present h

/-- In every reachable state the processes are laid out so. -/
theorem Reach.laidOut {L : Link} {s : Kernel} (hs : Reach L s) {q : Slot}
    (hq : (s.proc q).state ≠ .unused) : LaidOut s.shmemPages (s.proc q) := by
  have hp := hs.memOk.procs q _ (mem_proc hq)
  exact ⟨hp.sz_le, hp.tiling⟩

/-- The first process with a region of one page, and the last word before `USERTOP`. -/
theorem argument_checks_exact_attached : ∃ s, Reach kernelImage s ∧
    (s.proc initproc).attachedKeys.Nonempty ∧
    ExactChecks s.shmemPages (s.proc initproc) (fun _ ↦ 0) 0x9FFFC#32 := by
  obtain ⟨s, k, hplain, hready, -, -, hvaddr, -⟩ := exists_attached
  have hs := hplain.reach
  refine ⟨s, hs, ⟨k, Proc.mem_attachedKeys.mpr ?_⟩,
    argument_checks_exact _ _ _ _ (hs.laidOut hready.ne_unused)⟩
  rw [hvaddr, Function.update_self]
  decide

/-! ## An absent page -/

/-- The first process has a region of one page and asks for a page less and then for a page more:
its first page is gone, and its second one is there. -/
theorem exists_hole : ∃ s, Reach kernelImage s ∧ (s.proc initproc).Live ∧
    (s.proc initproc).sz = 2 * pgsize ∧ (s.proc initproc).pgdir.pte 0 = none ∧
    ((s.proc initproc).pgdir.pte 1).isSome := by
  obtain ⟨s, k, hplain, hready, hsz, htop, -, -, -, hlen, -, -⟩ := exists_attached
  have hs := hplain.reach
  rw [length_frames_kernelImage] at hlen
  obtain ⟨m, d, hcall, hfreed, -⟩ := growproc_shrinks (n := -4096#32) (a := 0) hs.memOk
    hready.ne_unused (by rw [hsz]; rfl) (by decide)
  have hstep : coreStep kernelImage (.sbrk initproc (-4096#32)) s = some _ :=
    (if_pos hready).trans (by rw [hcall]; rfl)
  generalize ht : (s.setFreelist m).setProc initproc _ = t at hstep
  have htproc : t.proc initproc = { s.proc initproc with pgdir := d } := by
    rw [← ht, Kernel.setProc_self]
    rfl
  have htfree : t.freelist = m := by
    rw [← ht]
    rfl
  have htready : t.Ready initproc := by
    rw [Kernel.Ready, htproc]
    exact hready
  have hgone : d.pte 0 = none := by
    rw [hfreed.pte, hsz]
    exact if_pos (by decide)
  -- the frame of the first page is free, so there is memory for the second
  have hgrant : t.Granted initproc (2 * pgsize) := by
    obtain ⟨l, rfl, -⟩ := hfreed.freed
    rw [Kernel.Granted, htproc, htfree, List.length_append]
    simp only
    rw [hsz, htop]
    have h1 : pageUp (2 * pgsize) = 2 := by decide
    have h2 : pageUp pgsize = 1 := by decide
    refine ⟨by decide, by omega⟩
  obtain ⟨u, hcall', hresized, -⟩ := growproc_granted (n := 4096#32) (hs.step hstep).memOk
    htready.ne_unused (by rw [htproc, hsz]; rfl) (by decide) hgrant
  have hstep' : coreStep kernelImage (.sbrk initproc 4096#32) t = some u :=
    (if_pos htready).trans (by rw [hcall']; rfl)
  refine ⟨u, (hs.step hstep).step hstep', .inr (.inl ?_), hresized.sz, ?_, ?_⟩
  · rw [hresized.state]
    exact htready.1
  · rw [hresized.low 0 (by rw [htproc, hsz]; decide), htproc]
    exact hgone
  · obtain ⟨f, hf⟩ := hresized.new 1 (by rw [htproc, hsz]; decide) (by decide)
    rw [hf]
    rfl

/-- A string that starts on the absent page: the kernel faults, although there is a NUL on the
next page. -/
theorem not_argument_checks_exact : ¬∀ (pages : Key → ℕ) (p : Proc) (mem : Phys) (a : BitVec 32),
    LaidOut pages p → ((∃ s d, (Code.fetchstr a.toNat : Code p _).eval mem = some (some (s, d))) ↔
      ∃ x, a.toNat ≤ x ∧ InSegment pages p a.toNat (x + 1) ∧ p.load mem x = some 0) := by
  intro h
  obtain ⟨s, hs, hlive, hsz, habsent, hnext⟩ := exists_hole
  have hlaid := hs.laidOut hlive.ne_unused
  obtain ⟨e, he⟩ := Option.isSome_iff_exists.mp hnext
  have hload : (s.proc initproc).load (fun _ ↦ 0) pgsize = some 0 := by
    refine load_of_frames (f := e.pa) ?_
    change ((s.proc initproc).pgdir.pte 1).map Pte.pa = _
    rw [he]
    rfl
  have hfault : (s.proc initproc).load (fun _ ↦ 0) 0 = none := by
    change (((s.proc initproc).pgdir.pte 0).map Pte.pa |>.map _).map _ = _
    rw [habsent]
    rfl
  have hin : InSegment s.shmemPages (s.proc initproc) 0 (pgsize + 1) := by
    refine ⟨0, _, .heap, le_rfl, ?_⟩
    rw [hsz]
    decide
  obtain ⟨str, d, haccept⟩ := (h s.shmemPages (s.proc initproc) (fun _ ↦ 0) 0#32 hlaid).mpr
    ⟨pgsize, Nat.zero_le _, hin, hload⟩
  obtain ⟨-, -, hnul, hbefore⟩ := (fetchstr_accepts_iff hlaid str d).mp haccept
  -- the byte at the address itself would have to be there
  rcases Nat.eq_zero_or_pos d with rfl | hd
  · cases hfault.symm.trans hnul
  · obtain ⟨b, hb, -⟩ := hbefore 0 hd
    cases hfault.symm.trans hb

end CS537.Shm
