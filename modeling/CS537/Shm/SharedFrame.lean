import CS537.Shm.Copy
import CS537.Shm.Growproc

/-!
# A copy with one frame in two pages

A parent of 160 pages reaps a child that had a region of two pages to itself: the frames of the
region go on the free list twice. Between the two places of the upper page lie the lower page, the
directory of the child and its twelve page tables. When the parent has given back 79 of its pages
and forks, the last of its other 81 pages is copied into the frame of one before it.
-/

open Finset Function Holding Transition

namespace CS537.Shm

variable {L : Link} {s : Kernel} {q z : Slot}

/-! ## The free list after a `wait` -/

/-- What `wait` leaves of a zombie child: the regions it has left in front of its address space,
whose pages come last. -/
theorem wait_reaps (hok : MemOk L s.mem) (hq : s.Ready q) (hz : zombieChild q s = some z)
    (hne : z ≠ q) : ∃ t l l', coreStep L (.wait q) s = some t ∧
      LeaveFrees L s.mem (s.proc z).shmemVaddr l ∧ l'.length = 12 ∧
      t.freelist = l ++ ((s.proc z).pgdir.frame :: (l' ++
        (((List.range' 0 (pageUp (s.proc q).sz)).filterMap (s.proc z).pgdir.frames).reverse ++
          (s.proc z).kstack :: s.freelist))) ∧
      t.proc q = s.proc q := by
  have hzstate : (s.proc z).state ≠ .unused := by
    rw [zombieChild_state hz]
    simp
  have hp := hok.procs q _ (mem_proc hq.ne_unused)
  have hspace : Space L (s.proc z).pgdir := (hok.procs z _ (mem_proc hzstate)).space
  obtain ⟨l, l', u, hu, hleave, -, hfree, heq⟩ := reap_ok hok hq.ne_unused hzstate
  obtain ⟨l₁, hlen, horder⟩ :=
    freevm_order ((s.proc z).kstack :: s.freelist) hspace (hp.sz_le.trans hp.top_le)
  have hfl : l' ++ (s.proc z).kstack :: s.freelist = (s.proc z).pgdir.frame :: (l₁ ++ _) :=
    Except.ok.inj (hfree.symm.trans horder)
  refine ⟨_, l, l₁, (if_pos hq.1).trans (by rw [wait_of_reap hz hu]; rfl), hleave, hlen, ?_, ?_⟩
  · refine (congrArg Kernel.freelist heq).trans ?_
    exact congrArg (l ++ ·) hfl
  · have hsame : u.proc q = s.proc q := by
      rw [heq]
      exact update_of_ne hne.symm _ _
    rw [Kernel.setProc_self, hsame, ← hq.2]

theorem rowHolds_eq_count (row : ℕ → ℕ) (n f : ℕ) :
    rowHolds row n f = ((List.range n).map row).count f := by
  induction n with
  | zero => rfl
  | succ n ih =>
    rw [rowHolds, range_add_one, held_insert (by simp), ← rowHolds, ih, List.range_succ,
      List.map_append, List.count_append, cell_some, List.map_singleton, List.count_singleton]
    simp [Nat.add_comm]

/-- Leaving the only region gives its row back. -/
theorem LeaveFrees.perm {m : Mem} {v : Key → ℕ} {l : List ℕ} (h : LeaveFrees L m v l) {k : Key}
    (hk : ∀ j, LastRef v m.count j ↔ j = k) :
    l.Perm ((List.range (m.pages k)).map (m.paddr k)) := by
  refine List.perm_iff_count.mpr fun f ↦ ?_
  rw [h.count, sum_eq_single k (fun j _ hj ↦ if_neg fun h ↦ hj ((hk j).mp h)) (by simp),
    if_pos ((hk k).mpr rfl), rowHolds_eq_count]

theorem growproc_pages {n : BitVec 32} {t : Kernel} {x : ℤ} (h : growproc L q n s = .ok (t, x)) :
    t.shmemPages = s.shmemPages := by
  rw [growproc] at h
  simp only at h
  split at h
  · obtain ⟨g, -, h⟩ := bind_eq_ok h
    rw [setProc_ret h]
    rfl
  split at h
  · obtain ⟨⟨m, d, ret⟩, -, h⟩ := bind_eq_ok h
    rw [setProc_ret h]
    rfl
  · obtain ⟨rfl, -⟩ := Prod.mk.inj (Except.ok.inj h)
    rfl

/-! ## The run -/

/-- The child of the first process exits with a region of two pages of its own, and the first process
has grown to `USERTOP`. -/
theorem exists_zombie_with_region : ∃ s z k, Unreaped kernelImage s ∧ z ≠ initproc ∧
    s.Ready initproc ∧ (s.proc initproc).sz = usertop ∧ (s.proc initproc).shmtop = usertop ∧
    (s.proc initproc).Full ∧ zombieChild initproc s = some z ∧
    (s.proc z).shmtop = usertop - 2 * pgsize ∧
    (s.proc z).shmemVaddr = update (fun _ ↦ 0) k (usertop - 2 * pgsize) ∧
    s.shmemPages k = 2 ∧ s.shmemCount k = 1 := by
  obtain ⟨s₁, z, hs₁, hne, hinit₁, hready₁, hsz₁, htop₁, hparent₁, hzsz₁, hztop₁, hvaddr₁,
    hcount₁, -, hother₁, hlen₁, hfull₁⟩ := exists_child
  let k : Key := ⟨0, by decide⟩
  have hnum : (2#32).toNat = 2 := rfl
  obtain ⟨s₂, d₂, hstep₂, hz₂, hother₂, hlen₂, hcount₂, hpages₂, hready₂, -⟩ :=
    step_shmgetat 0#32 2#32 (k := k) hs₁.reach.memOk hready₁ rfl (by decide) (by rw [hcount₁])
      (by rw [hvaddr₁]) (by rw [hzsz₁, hztop₁]; decide) (by rw [hnum]; omega)
  rw [hnum] at hlen₂ hpages₂
  have hs₂ := hs₁.step hstep₂ (count_lt_of_zero hcount₁)
  have hinit₂ : s₂.proc initproc = s₁.proc initproc := hother₂ _ hne.symm
  obtain ⟨s₃, hstep₃, hzombie₃, hparent₃, hready₃, hmem₃⟩ :=
    step_exit (L := kernelImage) hready₂ hne (by rw [hz₂, hparent₁])
  have hs₃ := hs₂.step hstep₃ trivial
  have hinit₃ := hready₃ initproc hne.symm (by rw [Kernel.Ready, hinit₂]; exact hinit₁)
  have hview₃ := view_eq_of_mem hmem₃ hinit₃.ne_unused
  rw [hinit₂] at hview₃
  have hzview₃ := view_eq_of_mem hmem₃ (show (s₃.proc z).state ≠ .unused by rw [hzombie₃]; simp)
  have hsz₃ : (s₃.proc initproc).sz = pgsize := (congrArg ProcMem.sz hview₃).trans hsz₁
  have htop₃ : (s₃.proc initproc).shmtop = usertop := (congrArg ProcMem.shmtop hview₃).trans htop₁
  have hfull₃ : (s₃.proc initproc).Full := by
    have hpgdir : (s₃.proc initproc).pgdir = (s₁.proc initproc).pgdir :=
      congrArg ProcMem.pgdir hview₃
    rw [Proc.Full, hsz₃, hpgdir, ← hsz₁]
    exact hfull₁
  have hfl₃ : s₃.freelist = s₂.freelist := congrArg Mem.freelist hmem₃
  have hgrown : pageUp (pgsize + (0x9F000#32).toNat) = 160 := by decide
  have hone : pageUp pgsize = 1 := by decide
  obtain ⟨s₄, d₄, hstep₄, hproc₄, hother₄, -, hcount₄, hinit₄, hfull₄⟩ :=
    step_sbrk (n := 0x9F000#32) hs₃.reach.memOk hinit₃ (by decide) (by rw [hsz₃, htop₃]; decide)
      (by rw [hsz₃, hgrown, hone, hfl₃]; omega)
  have hz₄ := hother₄ z hne
  have hsole : ∀ r, r ≠ z → (s₄.proc r).state ≠ .zombie := by
    intro r hr hzombie
    by_cases hinit : r = initproc
    · subst hinit
      rw [hinit₄.1] at hzombie
      cases hzombie
    · rw [hother₄ r hinit] at hzombie
      refine proc_mem_ne_none.mpr (by rw [hzombie]; simp) ?_
      rw [hmem₃]
      refine mem_of_unused ?_
      rw [hother₂ r hr]
      exact hother₁ r hinit hr
  refine ⟨s₄, z, k, hs₃.step hstep₄ trivial, hne, hinit₄, ?_, by rw [hproc₄, htop₃], hfull₄ hfull₃,
    zombieChild_of_sole (by rw [hz₄, hparent₃]) (by rw [hz₄, hzombie₃]) hsole, ?_, ?_, ?_, ?_⟩
  · rw [hproc₄, hsz₃]
    change pgsize + (0x9F000#32).toNat = usertop
    decide
  · have htop : (s₃.proc z).shmtop = (s₂.proc z).shmtop := congrArg ProcMem.shmtop hzview₃
    rw [hz₄, htop, hz₂, hztop₁, hnum]
  · have hvaddr : (s₃.proc z).shmemVaddr = (s₂.proc z).shmemVaddr :=
      congrArg ProcMem.shmemVaddr hzview₃
    rw [hz₄, hvaddr, hz₂, hztop₁, hvaddr₁, hnum]
  · obtain ⟨-, hcall⟩ := Option.ite_none_right_eq_some.mp hstep₄
    obtain ⟨x, hx⟩ := map_fst_eq_ok hcall
    rw [growproc_pages hx, show s₃.shmemPages = s₂.shmemPages from congrArg Mem.pages hmem₃,
      hpages₂, update_self]
  · rw [hcount₄, show s₃.shmemCount = s₂.shmemCount from congrArg Mem.count hmem₃, hcount₂,
      update_self]

/-- The first process has reaped the child and has 81 pages left. -/
theorem exists_two_places : ∃ (s : Kernel) (x f : ℕ) (m l l' m' : List ℕ), Reach kernelImage s ∧
    Reachable (step kernelImage) (Booted kernelImage) s ∧ s.Ready initproc ∧
    (s.proc initproc).sz = 0x51000 ∧ (s.proc initproc).shmtop = usertop ∧
    (s.proc initproc).Full ∧ s.freelist = m ++ (l ++ f :: (l' ++ x :: m')) ∧ m.length = 79 ∧
    l.length = 2 ∧ x ∈ l ∧ l'.length = 12 := by
  obtain ⟨s₁, z, k, hs₁, hne, hready₁, hsz₁, htop₁, hfull₁, hzombie, hztop, hzvaddr, hpages,
    hcount⟩ := exists_zombie_with_region
  have hok₁ := hs₁.reach.memOk
  obtain ⟨s₂, l, l', hstep₂, hleave, hlen', hfl₂, hproc₂⟩ := wait_reaps hok₁ hready₁ hzombie hne
  have hs₂ : Reach kernelImage s₂ := hs₁.reach.step hstep₂
  have hs₂' : Reachable (step kernelImage) (Booted kernelImage) s₂ :=
    hs₁.sound.reachable.snoc (a := .wait initproc) hstep₂ trivial
  have hready₂ : s₂.Ready initproc := by
    rw [Kernel.Ready, hproc₂]
    exact hready₁
  have hzok : ProcOk kernelImage s₁.shmemPages s₁.shmemPaddr (s₁.proc z).view :=
    hok₁.procs z _ (mem_proc (by rw [zombieChild_state hzombie]; simp))
  have hzk : (s₁.proc z).shmemVaddr k = usertop - 2 * pgsize := by rw [hzvaddr, update_self]
  -- the row has two frames, the first of them for the upper page
  have hperm := hleave.perm (k := k) fun j ↦ by
    constructor
    · rintro ⟨hj, -⟩
      by_contra hne'
      rw [hzvaddr, update_of_ne hne'] at hj
      exact hj rfl
    · rintro rfl
      exact ⟨by rw [hzk]; decide, hcount⟩
  change l.Perm ((List.range (s₁.shmemPages k)).map (s₁.shmemPaddr k)) at hperm
  rw [hpages] at hperm
  have hupper : (s₁.proc z).pgdir.frames 159 = some (s₁.shmemPaddr k 0) := by
    have hentry : (s₁.proc z).pgdir.pte ((s₁.proc z).shmemVaddr k / pgsize + 1) = _ :=
      hzok.entry k (by change (s₁.proc z).shmemVaddr k ≠ 0; rw [hzk]; decide) 1
        (by rw [hpages]; decide)
    rw [hzk, hpages] at hentry
    rw [PageDir.frames, show 159 = (usertop - 2 * pgsize) / pgsize + 1 by decide, hentry]
    rfl
  have hpagesfreed : ((List.range' 0 (pageUp (s₁.proc initproc).sz)).filterMap
      (s₁.proc z).pgdir.frames).reverse = s₁.shmemPaddr k 0 ::
        ((List.range' 0 159).filterMap (s₁.proc z).pgdir.frames).reverse := by
    rw [hsz₁, show pageUp usertop = 159 + 1 by decide, List.range'_concat, List.filterMap_append,
      List.reverse_append, List.filterMap_cons_some (b := s₁.shmemPaddr k 0) hupper]
    rfl
  rw [hpagesfreed] at hfl₂
  -- the first process gives back 79 pages
  have hsz₂ : (s₂.proc initproc).sz = usertop := by rw [hproc₂, hsz₁]
  obtain ⟨m, d, hcall, hfreed, -⟩ := growproc_shrinks (n := -0x4F000#32) (a := 0x51000) hs₂.memOk
    hready₂.ne_unused (by rw [hsz₂]; decide) (by decide)
  have hfull₂ : ∀ v, v < 160 → ((s₂.proc initproc).pgdir.pte v).isSome := by
    rw [hproc₂]
    rw [Proc.Full, hsz₁, show pageUp usertop = 160 by decide] at hfull₁
    exact hfull₁
  have hrounds : rounds (pageUp 0x51000) usertop = 79 := by decide
  have hup : pageUp 0x51000 = 81 := by decide
  rw [hsz₂, hrounds, hup] at hfreed
  have hstep₃ : coreStep kernelImage (.sbrk initproc (-0x4F000#32)) s₂ = some _ :=
    (if_pos hready₂).trans (by rw [hcall]; rfl)
  generalize ht : (s₂.setFreelist m).setProc initproc _ = s₃ at hstep₃
  have hproc₃ : s₃.proc initproc = { s₂.proc initproc with pgdir := d, sz := 0x51000 } := by
    rw [← ht, Kernel.setProc_self]
    rfl
  have hfl₃ : s₃.freelist = m := by
    rw [← ht]
    rfl
  have hlen : (((List.range' 81 79).filterMap (s₂.proc initproc).pgdir.frames).reverse).length
      = 79 := by
    rw [List.length_reverse, List.length_filterMap_eq_countP,
      List.countP_eq_length.mpr fun v hv ↦ ?_, List.length_range']
    have hv' := List.mem_range'_1.mp hv
    obtain ⟨p, hp⟩ := Option.isSome_iff_exists.mp (hfull₂ v hv'.2)
    rw [PageDir.frames, hp]
    rfl
  refine ⟨s₃, s₁.shmemPaddr k 0, (s₁.proc z).pgdir.frame, _, l, l', _, hs₂.step hstep₃,
    hs₂'.snoc (a := .sbrk initproc (-0x4F000#32)) hstep₃ trivial, ?_, by rw [hproc₃], ?_, ?_,
    hfl₃.trans (hfreed.order.trans (congrArg (_ ++ ·) hfl₂)), hlen, hperm.length_eq, ?_, hlen'⟩
  · rw [Kernel.Ready, hproc₃]
    exact hready₂
  · rw [hproc₃, hproc₂, htop₁]
  · intro v hv
    rw [hproc₃] at hv ⊢
    simp only [hup] at hv ⊢
    rw [hfreed.pte, if_neg (by omega)]
    exact hfull₂ v (by omega)
  · exact hperm.mem_iff.mpr (List.mem_map_of_mem (by simp))

/-- The `copyuvm` of the next `fork`, after a frame has gone to the stack of the child. -/
theorem not_copyuvm_duplicates : ∃ (s : Kernel) (r : ℕ) (m m' : Freelist) (d : PageDir),
    Reachable (step kernelImage) (Booted kernelImage) s ∧ s.Ready initproc ∧
    s.freelist = r :: m ∧
    Parent kernelImage (s.proc initproc).shmtop (s.proc initproc).sz (s.proc initproc).pgdir ∧
    copyuvm kernelImage (s.proc initproc).sz (s.proc initproc).shmtop (s.proc initproc).sz
      (s.proc initproc).pgdir m = .ok (m', some d) ∧
    ¬Duplicate (s.proc initproc).shmtop (s.proc initproc).sz (s.proc initproc).pgdir m m' d
      (copyuvmBytes kernelImage (s.proc initproc).sz (s.proc initproc).shmtop
        (s.proc initproc).sz (s.proc initproc).pgdir m) := by
  obtain ⟨s, x, f, m₁, l, l', m₂, hs, hs', hready, hsz, htop, hfull, hfl, hlen₁, hlen, hx, hlen'⟩ :=
    exists_two_places
  have hok := hs.memOk
  have hsrc := Parent.of_full hok hready.ne_unused hfull
  cases m₁ with
  | nil => cases hlen₁
  | cons r m₁ =>
  rw [List.cons_append] at hfl
  rw [List.length_cons] at hlen₁
  generalize hm : m₁ ++ (l ++ f :: (l' ++ x :: m₂)) = m at hfl
  have hvalid : ∀ f ∈ m, kernelImage.Valid f := fun f hf ↦
    hok.free f (show f ∈ s.freelist by rw [hfl]; exact List.mem_cons_of_mem _ hf)
  have hmlen : 94 ≤ m.length := by
    rw [← hm]
    simp only [List.length_append, List.length_cons]
    omega
  -- the two places of `x`
  obtain ⟨i, hi, hxi⟩ := List.mem_iff_getElem.mp hx
  have hlow : m[78 + i]? = some x := by
    rw [← hm, List.getElem?_append_right (by omega), List.getElem?_append_left (by omega),
      show 78 + i - m₁.length = i by omega, List.getElem?_eq_getElem hi, hxi]
  have hhigh : m[93]? = some x := by
    rw [← hm, List.getElem?_append_right (by omega), List.getElem?_append_right (by omega),
      show 93 - m₁.length - l.length = 12 + 1 by omega, List.getElem?_cons_succ,
      List.getElem?_append_right (by omega), hlen']
    rfl
  have hup : pageUp 0x51000 = 81 := by decide
  have hout := copyuvm_outcome (L := kernelImage) (m := m) hsrc.space hvalid hsrc.sz_le hsrc.top_le
    hsrc.aligned fun v h1 h2 ↦ hsrc.isSome_shared h1 h2
  generalize hcall : copyuvm kernelImage _ _ _ _ m = y at hout
  cases hout with
  | @panic e v hv hnone =>
    have hpres := hsrc.isSome_low hv
    rw [hnone] at hpres
    cases hpres
  | fail hlt =>
    rw [hsz, hup] at hlt
    omega
  | @copied m' d _ =>
    refine ⟨s, r, m, m', d, hs', hready, hfl, hsrc, hcall, fun hdup ↦ ?_⟩
    obtain ⟨m₃, d₁, l₁, d₂, hphases⟩ := exists_phases hsrc hvalid hcall
    -- the page `v` is in the frame number `13 + v`
    have hpage : ∀ v, v < 81 → m[13 + v]? = some x → d.frames v = some x := by
      intro v hv hmv
      obtain ⟨g, hg, hpte⟩ := hphases.private_pte hsrc (v := v) (by rw [hsz, hup]; exact hv)
      have hget : m[13 + v]? = some g := by
        rw [← List.getElem?_drop, hphases.fresh.drop, hphases.mapped.taken,
          List.getElem?_append_left (by rw [hphases.length, hsz, hup]; exact hv), hg]
      obtain rfl := Option.some.inj (hget.symm.trans hmv)
      rw [PageDir.frames, hpte]
      rfl
    have h80 := hpage 80 (by decide) hhigh
    have hlow' := hpage (65 + i) (by omega) (by rwa [show 13 + (65 + i) = 78 + i by omega])
    obtain ⟨g, -, hg, -, -, -, hinj, -⟩ := hdup.copied 80 (by rw [hsz, hup]; decide)
    obtain rfl := Option.some.inj (hg.symm.trans h80)
    have := hinj (65 + i) (by simp only [usertop, pgsize]; omega) hlow'
    omega

end CS537.Shm
