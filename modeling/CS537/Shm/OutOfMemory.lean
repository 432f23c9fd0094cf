import CS537.Shm.Frames

/-!
# Running out of memory

`setupkvm` takes the directory and then the page tables, and when a page table cannot be had it
returns without giving back what it has taken. `copyuvm` and `fork` come to the same when there are
not enough frames for `setupkvm`. Every other shortage is unwound: by `freevm` in `copyuvm`, by
`deallocuvm` in `allocuvm`.
-/

open Finset Function

namespace CS537.Shm

variable {L : Link} {s t : Kernel} {q np : Slot} {m m' : Freelist} {r : ℕ}

/-! ## The functions that take frames -/

/-- A call that takes frames: `allocuvm` on the address space `d`, the others for the process that
runs. -/
inductive Taker
  | setupkvm
  | copyuvm
  | fork
  | allocuvm (d : PageDir) (oldsz newsz : ℕ)
  | growproc (n : BitVec 32)

/-- The same address space, as far as anybody can see. -/
structure PageDir.Same (d d' : PageDir) : Prop where
  frame : d.frame = d'.frame
  tab : d.tab = d'.tab
  pte : d.pte = d'.pte

theorem PageDir.Same.refl (d : PageDir) : d.Same d := ⟨rfl, rfl, rfl⟩

/-- The same frames are free, and no process that was there has another page table. -/
structure Unwound (s t : Kernel) : Prop where
  free : t.freelist.Perm s.freelist
  tables : ∀ u, (s.proc u).state ≠ .unused → (t.proc u).pgdir.Same (s.proc u).pgdir

/-- What the callers of `allocuvm` see to: the pages to be mapped are absent. -/
structure Growable (L : Link) (d : PageDir) (oldsz newsz : ℕ) : Prop where
  space : Space L d
  absent : ∀ v, pageUp oldsz ≤ v → v < pageUp newsz → d.pte v = none

/-- The call is unwound whenever it reports a failure: a `fork` returns -1 and has made no child. A
`growproc` that shrinks calls no `kalloc`; a refusal for another reason is counted in. -/
def Taker.Unwinds (L : Link) (s : Kernel) (q : Slot) : Taker → Prop
  | .setupkvm => ∀ m, Shm.setupkvm L s.freelist = .ok (m, none) → Unwound s (s.setFreelist m)
  | .copyuvm => ∀ m, Shm.copyuvm L (s.proc q).sz (s.proc q).shmtop (s.proc q).sz (s.proc q).pgdir
      s.freelist = .ok (m, none) → Unwound s (s.setFreelist m)
  | .fork => ∀ t, Shm.fork L q s = .ok (t, -1) →
      (∀ u, (s.proc u).state = .unused → (t.proc u).state = .unused) → Unwound s t
  | .allocuvm d oldsz newsz => Growable L d oldsz newsz → ∀ g,
      Shm.allocuvm L (s.proc q).shmtop oldsz newsz s.freelist d = .ok g → g.ret = 0 →
        Unwound s (s.setFreelist g.freelist) ∧ g.pgdir.Same d
  | .growproc n => 0 < n.toInt → ∀ t, Shm.growproc L q n s = .ok (t, -1) → Unwound s t

/-- The frames that the call can still take when it comes to `setupkvm` are none, or enough for the
directory and its twelve page tables; the stack is taken before. A `fork` does not get as far when
all slots are taken. -/
def Taker.Spared (s : Kernel) : Taker → Prop
  | .setupkvm | .copyuvm => s.freelist.length = 0 ∨ 13 ≤ s.freelist.length
  | .fork => s.freelist.length ≤ 1 ∨ 14 ≤ s.freelist.length ∨ ∀ u, (s.proc u).state ≠ .unused
  | .allocuvm _ _ _ | .growproc _ => True

/-! ## `setupkvm` and `copyuvm` -/

theorem setupkvm_fails (h : setupkvm L m = .ok (m', none)) : m' = [] ∧ m.length < 13 := by
  rcases setupkvm_outcome L m with ⟨hsetup, hlen⟩ | ⟨m₁, d, hsetup, -⟩
  · obtain ⟨rfl, -⟩ := Prod.mk.inj (Except.ok.inj (h.symm.trans hsetup))
    exact ⟨rfl, hlen⟩
  · cases h.symm.trans hsetup

theorem setupkvm_of_lt (h : m.length < 13) : setupkvm L m = .ok ([], none) := by
  rcases setupkvm_outcome L m with ⟨hsetup, -⟩ | ⟨m₁, d, -, hfresh⟩
  · exact hsetup
  · have := hfresh.length
    omega

theorem copyuvm_of_lt (psz shmtop sz : ℕ) (src : PageDir) (h : m.length < 13) :
    copyuvm L psz shmtop sz src m = .ok ([], none) := by
  rw [copyuvm, setupkvm_of_lt h]
  rfl

/-- A `copyuvm` that fails has lost what was left for `setupkvm`, or everything is free again. -/
theorem copyuvm_fails (hok : MemOk L s.mem) (hq : (s.proc q).state ≠ .unused)
    (hm : ∀ f ∈ m, L.Valid f) (h : copyuvm L (s.proc q).sz (s.proc q).shmtop (s.proc q).sz
      (s.proc q).pgdir m = .ok (m', none)) :
    m.length < 13 ∧ m' = [] ∨ 13 ≤ m.length ∧ m'.Perm m := by
  have hp := hok.procs q _ (mem_proc hq)
  have hout := copyuvm_result (L := L) (m := m) hp.space hm hp.sz_le hp.top_le hp.top_aligned
    (fun v h1 h2 ↦ by
      obtain ⟨k, j, -, -, -, hpte⟩ := hp.shared h1 h2
      rw [hpte]
      rfl)
  change CopyResult L (s.proc q).shmtop (s.proc q).sz (s.proc q).pgdir m
    (copyuvm L (s.proc q).sz (s.proc q).shmtop (s.proc q).sz (s.proc q).pgdir m) at hout
  rw [h] at hout
  cases hout with
  | lost hlen => exact .inl ⟨hlen, rfl⟩
  | undone hlen _ hcount _ => exact .inr ⟨hlen, List.perm_iff_count.mpr hcount⟩

/-- Nothing is free any more, and that is as before only when nothing was free. -/
theorem nil_perm_iff (l : List ℕ) : ([] : List ℕ).Perm l ↔ l.length = 0 := by
  rw [List.nil_perm, List.length_eq_zero_iff]

/-! ## `fork` -/

/-- What the loop over the regions leaves alone. -/
theorem inheritKeys_keeps (hne : q ≠ np) :
    (keys.foldl (inheritOne q np) s).freelist = s.freelist ∧
      (∀ u, u ≠ np → (keys.foldl (inheritOne q np) s).proc u = s.proc u) ∧
      ((keys.foldl (inheritOne q np) s).proc np).kstack = (s.proc np).kstack := by
  rw [inheritKeys_eq hne nodup_keys s]
  refine ⟨rfl, fun u hu ↦ update_of_ne hu _ _, ?_⟩
  simp only [update_self]

/-- The state in which `fork` goes on, with the slot `np` and the stack `r`. -/
def allocated (s : Kernel) (np : Slot) (r : ℕ) (m : Freelist) : Kernel :=
  (s.bumpPid.setFreelist m).setProc np ((s.proc np).embryo s.nextpid r)

theorem allocated_of_ne (hne : q ≠ np) : (allocated s np r m).proc q = s.proc q :=
  Kernel.setProc_of_ne _ _ hne

theorem allocated_self :
    (allocated s np r m).proc np = (s.proc np).embryo s.nextpid r := Kernel.setProc_self ..

/-- When `fork` makes no child out of a slot and a stack, `copyuvm` has failed, and the stack is
freed. -/
theorem forkInto_fails (hne : q ≠ np) (hr : L.Valid r)
    (h : forkInto L q np (allocated s np r m) = .ok (t, -1))
    (hunused : (t.proc np).state = .unused) :
    (∀ u, u ≠ np → t.proc u = s.proc u) ∧ ∃ m', t.freelist = r :: m' ∧
      copyuvm L (s.proc q).sz (s.proc q).shmtop (s.proc q).sz (s.proc q).pgdir m
        = .ok (m', none) := by
  rw [forkInto] at h
  obtain ⟨hfl, hother, hstack⟩ := inheritKeys_keeps (s := allocated s np r m) hne
  generalize keys.foldl (inheritOne q np) (allocated s np r m) = s₁ at h hfl hother hstack
  have hq₁ : s₁.proc q = s.proc q := (hother q hne).trans (allocated_of_ne hne)
  rw [allocated_self] at hstack
  have hfl₁ : s₁.freelist = m := hfl
  simp only [Kernel.setProc_self, hstack] at h
  obtain ⟨y, hy, h⟩ := bind_eq_ok h
  change copyuvm L (s₁.proc q).sz (s₁.proc q).shmtop (s₁.proc q).sz (s₁.proc q).pgdir
    s₁.freelist = .ok y at hy
  rw [hq₁, hfl₁] at hy
  obtain ⟨m', _ | d⟩ := y
  · change (kfree L r m' >>= _) = _ at h
    rw [kfree_of_valid hr, ok_bind] at h
    obtain ⟨rfl, -⟩ := Prod.mk.inj (Except.ok.inj h)
    refine ⟨fun u hu ↦ ?_, m', rfl, hy⟩
    have hu₁ : s₁.proc u = s.proc u := (hother u hu).trans (allocated_of_ne hu)
    refine (Kernel.setProc_of_ne _ _ hu).trans ((Kernel.setProc_of_ne _ _ hu).trans hu₁)
  · obtain ⟨rfl, -⟩ := Prod.mk.inj (Except.ok.inj h)
    rw [Kernel.setProc_self] at hunused
    cases hunused

theorem forkInto_of_fails (hne : q ≠ np) (hr : L.Valid r)
    (hcopy : copyuvm L (s.proc q).sz (s.proc q).shmtop (s.proc q).sz (s.proc q).pgdir m
      = .ok (m', none)) : ∃ t, forkInto L q np (allocated s np r m) = .ok (t, -1) ∧
        ∀ u, (s.proc u).state = .unused → (t.proc u).state = .unused := by
  obtain ⟨hfl, hother, hstack⟩ := inheritKeys_keeps (s := allocated s np r m) hne
  rw [forkInto]
  generalize keys.foldl (inheritOne q np) (allocated s np r m) = s₁ at hfl hother hstack ⊢
  have hq₁ : s₁.proc q = s.proc q := (hother q hne).trans (allocated_of_ne hne)
  have hfl₁ : s₁.freelist = m := hfl
  rw [allocated_self] at hstack
  simp only [hq₁, Kernel.setProc_self, hstack]
  change ∃ t, (copyuvm L (s.proc q).sz (s.proc q).shmtop (s.proc q).sz (s.proc q).pgdir
    s₁.freelist >>= _) = Except.ok (t, (-1 : ℤ)) ∧ _
  rw [hfl₁, hcopy, ok_bind]
  change ∃ t, (kfree L r m' >>= _) = Except.ok (t, (-1 : ℤ)) ∧ _
  rw [kfree_of_valid hr, ok_bind]
  refine ⟨_, rfl, fun u hu ↦ ?_⟩
  by_cases hnp : u = np
  · rw [hnp, Kernel.setProc_self]
  · rw [Kernel.setProc_of_ne _ _ hnp]
    refine (congrArg Proc.state ((Kernel.setProc_of_ne _ _ hnp).trans (hother u hnp))).trans ?_
    rw [allocated_of_ne hnp, hu]

theorem fork_unwinds_iff (hok : MemOk L s.mem) (hq : (s.proc q).state ≠ .unused) :
    Taker.fork.Unwinds L s q ↔ Taker.fork.Spared s := by
  rcases allocproc_cases s with ⟨u, hu, hmem, hwhy⟩ | ⟨np, r, m, hfl, hnp, hu⟩
  · -- there is no slot, or no stack
    have hfork : fork L q s = .ok (u, -1) := by
      rw [fork, hu]
      rfl
    refine iff_of_true (fun t ht _ ↦ ?_) ?_
    · obtain ⟨rfl, -⟩ := Prod.mk.inj (Except.ok.inj (ht.symm.trans hfork))
      refine ⟨List.Perm.of_eq (congrArg Mem.freelist hmem), fun v hv ↦ ?_⟩
      have hview := view_eq_of_mem hmem.symm hv
      have hpgdir : (t.proc v).pgdir = (s.proc v).pgdir := congrArg ProcMem.pgdir hview.symm
      rw [hpgdir]
      exact .refl _
    · rcases hwhy with hall | hnil
      · exact .inr (.inr hall)
      · exact .inl (by rw [hnil]; exact Nat.zero_le 1)
  have hne : q ≠ np := by
    rintro rfl
    exact hq hnp
  have hvalid : ∀ f ∈ r :: m, L.Valid f := fun f hf ↦ hok.free f (by
    change f ∈ s.freelist
    rwa [hfl])
  have hr : L.Valid r := hvalid r (by simp)
  have hfork : fork L q s = forkInto L q np (allocated s np r m) := by
    rw [fork, hu]
    rfl
  constructor
  · intro hunwinds
    by_contra hspared
    simp only [Taker.Spared, not_or, hfl, List.length_cons] at hspared
    obtain ⟨hlow, hhigh, -⟩ := hspared
    -- `setupkvm` takes what is there and fails
    have hcopy := copyuvm_of_lt (L := L) (s.proc q).sz (s.proc q).shmtop (s.proc q).sz
      (s.proc q).pgdir (show m.length < 13 by omega)
    obtain ⟨t, ht, hunused⟩ := forkInto_of_fails hne hr hcopy
    obtain ⟨-, m', hfl', hcopy'⟩ := forkInto_fails hne hr ht (hunused np hnp)
    obtain ⟨rfl, -⟩ := Prod.mk.inj (Except.ok.inj (hcopy.symm.trans hcopy'))
    have hlen := (hunwinds t (hfork.trans ht) hunused).free.length_eq
    rw [hfl', hfl, List.length_cons, List.length_cons, List.length_nil] at hlen
    omega
  · intro hspared t ht hunused
    obtain ⟨hother, m', hfl', hcopy⟩ :=
      forkInto_fails hne hr (hfork.symm.trans ht) (hunused np hnp)
    refine ⟨?_, fun u hu ↦ ?_⟩
    · rw [hfl', hfl]
      rcases copyuvm_fails hok hq (fun f hf ↦ hvalid f (by simp [hf])) hcopy with
        ⟨hlen, rfl⟩ | ⟨-, hperm⟩
      · -- the stack was the last frame
        have hnil : m = [] := by
          rw [Taker.Spared, hfl, List.length_cons] at hspared
          rcases hspared with hlow | hhigh | hall
          · exact List.length_eq_zero_iff.mp (by omega)
          · omega
          · exact absurd hnp (hall np)
        rw [hnil]
      · exact hperm.cons r
    · rw [hother u (fun heq ↦ hu (heq ▸ hnp))]
      exact .refl _

/-! ## `allocuvm` and `growproc` -/

theorem allocuvm_fails {shmtop oldsz newsz : ℕ} {d : PageDir} {g : Grown} (hd : Space L d)
    (hm : ∀ f ∈ m, L.Valid f) (htop : shmtop ≤ usertop)
    (hfree : ∀ v, pageUp oldsz ≤ v → v < pageUp newsz → newsz ≤ shmtop → d.pte v = none)
    (h : allocuvm L shmtop oldsz newsz m d = .ok g) (hret : g.ret = 0) :
    g.freelist.Perm m ∧ g.pgdir.Same d := by
  obtain ⟨g', hg', hout⟩ := allocuvm_outcome newsz hd hm htop hfree
  obtain rfl := Except.ok.inj (h.symm.trans hg')
  cases hout with
  | high _ => exact ⟨.refl m, .refl d⟩
  | shrink _ hlt =>
    have hret' : oldsz = 0 := hret
    omega
  | @grown m' d' l _ hle hmap hlen =>
    -- from 0 to 0 there is nothing to map
    obtain rfl : newsz = 0 := hret
    obtain rfl := Nat.le_zero.mp hle
    obtain rfl : l = [] := List.length_eq_zero_iff.mp (hlen.trans (Nat.sub_self _))
    refine ⟨.of_eq hmap.taken.symm, hmap.frame, hmap.tab, funext fun v ↦ ?_⟩
    rw [hmap.pte, if_neg (by rw [List.length_nil]; omega)]
  | full _ _ _ hframe htab hpte hcount =>
    exact ⟨List.perm_iff_count.mpr hcount, hframe, htab, hpte⟩

theorem growproc_unwinds (hok : MemOk L s.mem) (hq : (s.proc q).state ≠ .unused) {n : BitVec 32}
    (hn : 0 < n.toInt) (h : growproc L q n s = .ok (t, -1)) : Unwound s t := by
  have hp := hok.procs q _ (mem_proc hq)
  rw [growproc] at h
  simp only [if_pos hn] at h
  obtain ⟨g, hg, h⟩ := bind_eq_ok h
  split at h
  · rename_i hret
    obtain ⟨rfl, -⟩ := Prod.mk.inj (Except.ok.inj h)
    obtain ⟨hperm, hsame⟩ := allocuvm_fails hp.space hok.free hp.top_le
      (fun v h1 h2 h3 ↦ hp.absent h3 h1 h2) hg hret
    refine ⟨hperm, fun u _ ↦ ?_⟩
    by_cases hu : u = q
    · rw [hu, Kernel.setProc_self]
      exact hsame
    · rw [Kernel.setProc_of_ne _ _ hu]
      exact .refl _
  · obtain ⟨-, hret⟩ := Prod.mk.inj (Except.ok.inj h)
    exact absurd hret (by decide)

/-! ## When a shortage is unwound -/

theorem MemOk.setFreelist (hok : MemOk L s.mem) (hm : ∀ f ∈ m, L.Valid f) :
    MemOk L (s.setFreelist m).mem :=
  ⟨hm, hok.procs, hok.pages_le, hok.region, hok.spare, hok.attached_le, hok.count_lt⟩

/-- **A shortage of memory is unwound except in `setupkvm`.** Whatever frames are free and whoever
calls, a failed call leaves the free frames and the page tables as they were if and only if
`setupkvm` finds no frame at all or all thirteen that it needs. -/
theorem unwinds_iff (L : Link) (s : Kernel) (q : Slot) (m : Freelist) (c : Taker) (hs : Reach L s)
    (hq : (s.proc q).state ≠ .unused) (hm : ∀ f ∈ m, L.Valid f) :
    c.Unwinds L (s.setFreelist m) q ↔ c.Spared (s.setFreelist m) := by
  have hok := hs.memOk.setFreelist hm
  cases c with
  | setupkvm =>
    constructor
    · intro hunwinds
      by_contra hspared
      simp only [Taker.Spared, not_or, not_le] at hspared
      have hperm := (hunwinds [] (setupkvm_of_lt hspared.2)).free
      exact hspared.1 ((nil_perm_iff _).mp hperm)
    · intro hspared m' hm'
      obtain ⟨rfl, hlen⟩ := setupkvm_fails hm'
      rw [Taker.Spared] at hspared
      refine ⟨(nil_perm_iff _).mpr (hspared.resolve_right (Nat.not_le.mpr hlen)), fun u _ ↦ .refl _⟩
  | copyuvm =>
    constructor
    · intro hunwinds
      by_contra hspared
      simp only [Taker.Spared, not_or, not_le] at hspared
      have hperm := (hunwinds [] (copyuvm_of_lt _ _ _ _ hspared.2)).free
      exact hspared.1 ((nil_perm_iff _).mp hperm)
    · intro hspared m' hm'
      rw [Taker.Spared] at hspared
      refine ⟨?_, fun u _ ↦ .refl _⟩
      rcases copyuvm_fails hok hq hm hm' with ⟨hlen, rfl⟩ | ⟨-, hperm⟩
      · exact (nil_perm_iff _).mpr (hspared.resolve_right (Nat.not_le.mpr hlen))
      · exact hperm
  | fork => exact fork_unwinds_iff hok hq
  | allocuvm d oldsz newsz =>
    refine iff_of_true (fun hgrow g hg hret ↦ ?_) trivial
    obtain ⟨hperm, hsame⟩ := allocuvm_fails hgrow.space hm
      (hok.procs q _ (mem_proc hq)).top_le (fun v h1 h2 _ ↦ hgrow.absent v h1 h2) hg hret
    exact ⟨⟨hperm, fun u _ ↦ .refl _⟩, hsame⟩
  | growproc n => exact iff_of_true (fun hn t ht ↦ growproc_unwinds hok hq hn ht) trivial

/-- The first process has used up all frames but one, and there is no memory for the child. -/
theorem unwinds_iff_stack : ∃ s, Reach kernelImage s ∧ s.freelist.length = 1 ∧
    Taker.fork.Unwinds kernelImage s initproc := by
  have hpages : pageUp (pgsize + (0x79000#32).toNat) = 122 := by decide
  obtain ⟨s₀, hforker₀, hsz, -, hlen, -⟩ :=
    exists_forker (n := 0x79000#32) (m := 27) (by decide) (by decide) (by decide)
  obtain ⟨s, hforker, -, hlen', -⟩ := hforker₀.exhausts (r := 1) (by rw [hsz]; omega)
  refine ⟨s, hforker.reach, hlen', ?_⟩
  exact (unwinds_iff kernelImage s initproc s.freelist .fork hforker.reach hforker.ready.ne_unused
    hforker.memOk.free).mpr (.inl hlen'.le)

/-- Three frames are left, `setupkvm` takes them and fails, and no frame is free any more. -/
theorem not_unwinds : ∃ s m, Reach kernelImage s ∧ s.Ready initproc ∧ s.freelist.length = 3 ∧
    setupkvm kernelImage s.freelist = .ok (m, none) ∧ ¬∀ f, f ∈ m ↔ f ∈ s.freelist := by
  obtain ⟨s₀, hforker₀, hsz, -, hlen, -⟩ :=
    exists_forker (n := 0x9E000#32) (m := 21) (by decide) (by decide) (by decide)
  have hpages : pageUp (pgsize + (0x9E000#32).toNat) = 159 := by decide
  obtain ⟨s, hforker, -, hlen', -⟩ := hforker₀.exhausts (r := 3) (by rw [hsz]; omega)
  refine ⟨s, [], hforker.reach, hforker.ready, hlen', setupkvm_of_lt (by omega), fun hsame ↦ ?_⟩
  obtain ⟨f, hf⟩ := List.exists_mem_of_length_pos (show 0 < s.freelist.length by omega)
  exact List.not_mem_nil ((hsame f).mpr hf)

end CS537.Shm
