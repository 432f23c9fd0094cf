import CS537.Shm.Frames

/-!
# Frames that a teardown gives back

`freevm` frees the private pages of an address space up to `proc->sz`, which is the size of another
process (`wait`) or of another image (`exec`). What lies beyond is lost: neither mapped by a live
process nor on the free list.
-/

open Finset Function Holding Tally Transition

namespace CS537.Shm

variable {L : Link}

/-! ## The size of a new image -/

/-- The size that `n` program headers from `off` on ask for, from the size `sz` on. -/
def File.sizeFrom (f : File) : ℕ → ℕ → ℕ → ℕ
  | 0, _, sz => sz
  | n + 1, off, sz =>
    f.sizeFrom n ((off + proghdrSize) % 2 ^ 32)
      (if (f.proghdr off).type ≠ 1 then sz
        else max sz (((f.proghdr off).va + (f.proghdr off).memsz) % 2 ^ 32))

/-- The size of the image of an executable: its segments and a page of stack. -/
def File.imageSize (f : File) : ℕ :=
  pgRoundUp (f.sizeFrom f.elfhdr.phnum f.elfhdr.phoff 0) + pgsize

theorem allocuvm_ret {shmtop oldsz newsz : ℕ} {m : Freelist} {d : PageDir} {g : Grown}
    (h : allocuvm L shmtop oldsz newsz m d = .ok g) (hne : g.ret ≠ 0) :
    newsz ≤ shmtop ∧ g.ret = max oldsz newsz := by
  rw [allocuvm] at h
  -- a size above `shmtop` and a full memory return 0, which `hne` excludes
  split at h
  · obtain rfl := Except.ok.inj h
    exact absurd rfl hne
  rename_i hle
  split at h
  · rename_i hlt
    obtain rfl := Except.ok.inj h
    exact ⟨not_lt.mp hle, (max_eq_left hlt.le).symm⟩
  · rename_i hlt
    obtain ⟨⟨m', d', l, ok⟩, -, h⟩ := bind_eq_ok h
    cases ok with
    | true =>
      obtain rfl := Except.ok.inj h
      exact ⟨not_lt.mp hle, (max_eq_right (not_lt.mp hlt)).symm⟩
    | false =>
      obtain ⟨⟨m'', d'', ret⟩, -, h⟩ := bind_eq_ok h
      obtain rfl := Except.ok.inj h
      exact absurd rfl hne

theorem grow_sz {top newsz : ℕ} {im im' : Image} (h : im.grow L top newsz = .ok im')
    (hne : im'.sz ≠ 0) : newsz ≤ top ∧ im'.sz = max im.sz newsz := by
  obtain ⟨g, hg, h⟩ := bind_eq_ok h
  obtain rfl := Except.ok.inj h
  exact allocuvm_ret hg hne

theorem loadSegment_sz {top : ℕ} {f : File} {ph : Proghdr} {im im' : Image}
    (h : loadSegment L top f ph im = .ok (im', true)) :
    (ph.va + ph.memsz) % 2 ^ 32 ≤ top ∧ im'.sz = max im.sz ((ph.va + ph.memsz) % 2 ^ 32) := by
  rw [loadSegment] at h
  split at h
  · cases h
  obtain ⟨im₁, hgrow, h⟩ := bind_eq_ok h
  split at h
  · cases h
  · rename_i hne
    obtain ⟨⟨l, ok⟩, -, h⟩ := bind_eq_ok h
    obtain ⟨rfl, -⟩ := Prod.mk.inj (Except.ok.inj h)
    have hsz := grow_sz hgrow hne
    exact hsz

theorem loadSegments_sz {top : ℕ} {f : File} {n off : ℕ} {im im' : Image}
    (h : loadSegments L top f n off im = .ok (im', true)) (hsz : im.sz ≤ top) :
    im'.sz ≤ top ∧ im'.sz = f.sizeFrom n off im.sz := by
  induction n generalizing off im with
  | zero =>
    obtain ⟨rfl, -⟩ := Prod.mk.inj (Except.ok.inj h)
    exact ⟨hsz, rfl⟩
  | succ n ih =>
    rw [loadSegments] at h
    rw [File.sizeFrom]
    split at h
    · cases h
    -- a header of another type is skipped
    split at h
    · rename_i htype
      rw [if_pos htype]
      exact ih h hsz
    · rename_i htype
      rw [if_neg htype]
      obtain ⟨⟨im₁, b⟩, hseg, h⟩ := bind_eq_ok h
      cases b with
      | false => cases h
      | true =>
        obtain ⟨hle, hmax⟩ := loadSegment_sz hseg
        rw [← hmax]
        refine ih h ?_
        rw [hmax]
        exact max_le hsz hle

theorem buildImage_sz {top : ℕ} {f : File} {argv : List Arg} {m : Freelist} {d : PageDir}
    {im : Image} (h : buildImage L top f argv m d = .ok (im, true)) (htop : top ≤ usertop) :
    im.sz = f.imageSize := by
  obtain ⟨⟨im₁, b⟩, hload, h⟩ := bind_eq_ok h
  cases b with
  | false => cases h
  | true =>
    obtain ⟨hle, hsz⟩ := loadSegments_sz hload (Nat.zero_le top)
    obtain ⟨im₂, hgrow, h⟩ := bind_eq_ok h
    split at h
    · cases h
    · rename_i hne
      obtain ⟨ok, -, h⟩ := bind_eq_ok h
      obtain ⟨rfl, -⟩ := Prod.mk.inj (Except.ok.inj h)
      obtain ⟨-, hmax⟩ := grow_sz hgrow hne
      have hup := pageUp_le (hle.trans htop)
      simp only at hmax hsz
      rw [hmax, File.imageSize, ← hsz]
      simp only [pgRoundUp, pgsize] at *
      omega

/-! ## What is given back -/

/-- The private pages of `p`, its page tables and its directory are on the free list. -/
structure Proc.Freed (p : Proc) (fl : Freelist) : Prop where
  pages : ∀ v, v < p.shmtop / pgsize → ∀ e, p.pgdir.pte v = some e → e.pa ∈ fl
  tables : ∀ x r, p.pgdir.tab x = some r → r ∈ fl
  dir : p.pgdir.frame ∈ fl

/-- No private page of `p` lies beyond the size `sz`. -/
def Proc.Within (p : Proc) (sz : ℕ) : Prop :=
  ∀ v, v < p.shmtop / pgsize → (p.pgdir.pte v).isSome → v < pageUp sz

/-- The pages, tables and directory that `freevm` frees. -/
theorem DirFrees.freed {sz : ℕ} {p : Proc} {l : List ℕ} {fl : Freelist} (hspace : Space L p.pgdir)
    (h : DirFrees L sz p.pgdir l) (hl : ∀ f ∈ l, f ∈ fl) (hwithin : p.Within sz) : p.Freed fl := by
  have hmem : ∀ f, 0 < [p.pgdir.frame].count f + p.pgdir.tables f
      + held (range (pageUp sz)) p.pgdir.frames f → f ∈ fl := fun f hf ↦ by
    rw [← h.count] at hf
    exact hl f (List.count_pos_iff.mp hf)
  refine ⟨fun v hv e he ↦ hmem _ ?_, fun x r hx ↦ hmem _ ?_, hmem _ ?_⟩
  · have hlt := hwithin v hv (by rw [he]; rfl)
    have : 0 < held (range (pageUp sz)) p.pgdir.frames e.pa :=
      held_pos_iff.mpr ⟨v, mem_range.mpr hlt, by rw [PageDir.frames, he]; rfl⟩
    omega
  · have hk : KernelTab x := (hspace.tab x).mp (by rw [hx]; rfl)
    have hlt : x < 1024 := by
      rw [KernelTab] at hk
      omega
    have : 0 < p.pgdir.tables r := held_pos_iff.mpr ⟨x, mem_range.mpr hlt, hx⟩
    omega
  · have : 0 < [p.pgdir.frame].count p.pgdir.frame := by simp
    omega

/-- While every frame has at most one place, a private page beyond the size is not on the free list:
it has been in none of the places that are freed. -/
theorem within_of_freed {s : Kernel} {z : Slot} {sz : ℕ} {l l' : List ℕ} {fl : Freelist}
    (hok : MemOk L s.mem) (huses : ∀ f, s.mem.uses f ≤ 1) (hz : (s.proc z).state ≠ .unused)
    (hleave : LeaveFrees L s.mem (s.proc z).shmemVaddr l) (hdir : DirFrees L sz (s.proc z).pgdir l')
    (hfl : ∀ f, fl.count f ≤ l'.count f + l.count f + [(s.proc z).kstack].count f
      + s.freelist.count f) (h : (s.proc z).Freed fl) : (s.proc z).Within sz := by
  intro v hv hsome
  obtain ⟨e, he⟩ := Option.isSome_iff_exists.mp hsome
  by_contra hlt
  have hsplit := held_split (not_lt.mp hlt |>.trans hv.le) le_rfl (s.proc z).pgdir.frames e.pa
  have hheld :
      0 < held (Ico (pageUp sz) ((s.proc z).shmtop / pgsize)) (s.proc z).pgdir.frames e.pa :=
    held_pos_iff.mpr ⟨v, mem_Ico.mpr ⟨not_lt.mp hlt, hv⟩, by rw [PageDir.frames, he]; rfl⟩
  -- a page beyond `sz` keeps its place in the process: on the free list as well it would have two
  have howned : owned e.pa (s.mem.proc z) ≤ tally (owned e.pa) s.mem.proc :=
    le_tally (owned e.pa) s.mem.proc z
  rw [mem_proc hz] at howned
  change [(s.proc z).kstack].count e.pa + [(s.proc z).pgdir.frame].count e.pa
    + (s.proc z).pgdir.tables e.pa
    + held (range ((s.proc z).shmtop / pgsize)) (s.proc z).pgdir.frames e.pa ≤ _ at howned
  have hrows := rows_leave hleave (fun k hk ↦ hok.count_pos (mem_proc hz) hk) e.pa
  have huse := huses e.pa
  have hfree := List.count_pos_iff.mpr (h.pages v hv e he)
  have hcount := hfl e.pa
  rw [hdir.count] at hcount
  rw [Mem.uses] at huse
  change s.freelist.count e.pa + _ + _ ≤ 1 at huse
  omega

/-! ## `wait` -/

/-- What a `wait` that reaps a child does to the free list. -/
theorem wait_frees {q z : Slot} {s t : Kernel} (hok : MemOk L s.mem)
    (h : coreStep L (.wait q) s = some t) (hz : zombieChild q s = some z) :
    (s.proc z).state = .zombie ∧ ∃ l l', LeaveFrees L s.mem (s.proc z).shmemVaddr l ∧
      DirFrees L (s.proc q).sz (s.proc z).pgdir l' ∧
      t.freelist = l ++ (l' ++ (s.proc z).kstack :: s.freelist) := by
  obtain ⟨hq, h⟩ := Option.ite_none_right_eq_some.mp h
  obtain ⟨x, h⟩ := map_fst_eq_ok h
  have hzstate := zombieChild_state hz
  obtain ⟨l, l', u, hu, hleave, hdir, -, heq⟩ :=
    reap_ok hok (q := q) (z := z) (by rw [hq]; simp) (by rw [hzstate]; simp)
  rw [wait_of_reap hz hu] at h
  have ht := (Prod.mk.inj (Except.ok.inj h)).1
  refine ⟨hzstate, l, l', hleave, hdir, ?_⟩
  rw [← ht, heq]
  rfl

/-! ## `exec` -/

/-- What an `exec` that returns 0 does to the free list. -/
theorem exec_frees {q : Slot} {f : File} {argv : List Arg} {s t : Kernel} {tr : List Event}
    (hok : MemOk L s.mem) (hq : (s.proc q).state ≠ .unused)
    (h : exec L q (some f) argv s = .ok (t, 0, tr)) :
    ∃ fl l l', (∀ r, fl.count r ≤ s.freelist.count r) ∧
      LeaveFrees L s.mem (s.proc q).shmemVaddr l ∧
      DirFrees L f.imageSize (s.proc q).pgdir l' ∧ t.freelist = l' ++ (l ++ fl) := by
  have hp := hok.procs q _ (mem_proc hq)
  have htop : (s.proc q).shmtop ≤ usertop := hp.top_le
  -- the paths to the label `bad` return -1
  have hbad : ∀ {u : Kernel} {l : List Event},
      (pure (u, (-1 : ℤ), l) : Except String (Kernel × ℤ × List Event)) ≠ .ok (t, 0, tr) := by
    intro u l hx
    have hret := (Prod.mk.inj (Prod.mk.inj (Except.ok.inj hx)).2).1
    omega
  rw [exec] at h
  split at h
  · exact absurd h hbad
  rcases setupkvm_outcome L s.freelist with ⟨hsetup, -⟩ | ⟨m₁, d, hsetup, hfresh⟩
  · rw [hsetup] at h
    exact absurd h hbad
  rw [hsetup, ok_bind] at h
  obtain ⟨⟨im, b⟩, hbuild, h⟩ := bind_eq_ok h
  obtain ⟨-, hbuilt⟩ :=
    buildImage_memory (hfresh.imageOk hok.free (s.proc q).shmtop) htop hp.top_aligned hbuild
  cases b with
  | false =>
    obtain ⟨m, -, h⟩ := bind_eq_ok h
    exact absurd h hbad
  | true =>
    obtain ⟨himage, hpos⟩ := hbuilt rfl
    obtain ⟨l, l', u, hu, hleave, hdir, heq⟩ :=
      commit_ok im hok hq (himage.sz_le.trans htop)
    simp only [hu, ok_bind] at h
    obtain ⟨rfl, -⟩ := Prod.mk.inj (Except.ok.inj h)
    refine ⟨im.freelist, l, l', fun r ↦ ?_, hleave, ?_, by rw [heq]⟩
    · have hcount := (himage.built hpos htop).count r
      change _ = s.freelist.count r at hcount
      omega
    · rwa [buildImage_sz hbuild htop] at hdir

/-! ## After careful moves -/

/-- **Teardown gives back all frames exactly when the size it is told suffices.** After any run of
careful moves, a `wait` that is no oversized reap frees the address space and the stack of the child
if and only if no private page of the child lies beyond the size of the caller, and a safe `exec`
frees the old address space if and only if none lies beyond the size of the new image. -/
theorem Sound.freed_iff {s : Kernel} (hs : Sound L s) (q : Slot) :
    (∀ z t, step L (.wait q) s = some t → zombieChild q s = some z →
      (s.proc q).sz ≤ (s.proc z).shmtop →
      ((s.proc z).Freed t.freelist ∧ (s.proc z).kstack ∈ t.freelist ↔
        (s.proc z).Within (s.proc q).sz)) ∧
    (∀ f argv t l, s.Ready q → SafeExec s q (some f) → exec L q (some f) argv s = .ok (t, 0, l) →
      step L (.exec q (some f) argv) s = some t ∧
      ((s.proc q).Freed t.freelist ↔ (s.proc q).Within f.imageSize)) := by
  have hok := hs.reach.memOk
  refine ⟨fun z t hstep hz _ ↦ ?_, fun f argv t tr' hq hsafe hexec ↦ ?_⟩
  · obtain ⟨hzombie, l, l', hleave, hdir, hfl⟩ := wait_frees hok hstep hz
    have hne : (s.proc z).state ≠ .unused := by
      rw [hzombie]
      simp
    have hspace : Space L (s.proc z).pgdir := (hok.procs z _ (mem_proc hne)).space
    refine ⟨fun hfreed ↦ ?_, fun h ↦ ⟨hdir.freed hspace (fun f hf ↦ ?_) h, ?_⟩⟩
    · refine within_of_freed hok hs.uses_le hne hleave hdir (fun f ↦ ?_) hfreed.1
      rw [hfl, ← List.singleton_append, List.count_append, List.count_append, List.count_append]
      omega
    · rw [hfl]
      simp [hf]
    · rw [hfl]
      simp
  · obtain ⟨fl, l, l', hcount, hleave, hdir, hfl⟩ := exec_frees hok hq.ne_unused hexec
    have hspace : Space L (s.proc q).pgdir := (hok.procs q _ (mem_proc hq.ne_unused)).space
    have hcont := hsafe.contained hok hq.ne_unused hexec
    refine ⟨(if_pos hq).trans (execStray_of_contained hexec hcont), fun hfreed ↦ ?_, fun h ↦
      hdir.freed hspace (fun f hf ↦ ?_) h⟩
    · refine within_of_freed hok hs.uses_le hq.ne_unused hleave hdir (fun f ↦ ?_) hfreed
      have := hcount f
      rw [hfl, List.count_append, List.count_append]
      omega
    · rw [hfl]
      simp [hf]

/-! ## A child larger than its parent -/

/-- The child of the first process has grown by a page and exited, and is reaped. -/
theorem exists_larger_child : ∃ s z t, Sound kernelImage s ∧
    step kernelImage (.wait initproc) s = some t ∧ zombieChild initproc s = some z ∧
    (s.proc initproc).sz ≤ (s.proc z).shmtop ∧ ¬(s.proc z).Within (s.proc initproc).sz := by
  obtain ⟨s₁, z, hs₁, hne, hinit₁, hready₁, hsz₁, htop₁, hparent₁, hzsz₁, hztop₁, -, -, hfull₁,
    hother₁, hlen₁, -⟩ := exists_child
  have hgrown : pageUp (pgsize + (0x1000#32).toNat) = 2 := by decide
  have hone : pageUp pgsize = 1 := by decide
  obtain ⟨s₂, d₂, hstep₂, hz₂, hother₂, -, -, hready₂, hfull₂⟩ :=
    step_sbrk (n := 0x1000#32) hs₁.reach.memOk hready₁ (by decide)
      (by rw [hzsz₁, hztop₁]; decide) (by rw [hzsz₁, hgrown, hone]; omega)
  have hs₂ := hs₁.step hstep₂ trivial
  have hinit₂ : s₂.proc initproc = s₁.proc initproc := hother₂ _ hne.symm
  obtain ⟨s₃, hstep₃, hzombie₃, hparent₃, hready₃, hmem₃⟩ :=
    step_exit (L := kernelImage) hready₂ hne (by rw [hz₂, hparent₁])
  have hs₃ := hs₂.step hstep₃ trivial
  have hinit₃ : s₃.Ready initproc := by
    refine hready₃ initproc hne.symm ?_
    rw [Kernel.Ready, hinit₂]
    exact hinit₁
  have hsz₃ : (s₃.proc initproc).sz = pgsize := by
    rw [← hsz₁, ← hinit₂]
    exact congrArg ProcMem.sz (view_eq_of_mem hmem₃ hinit₃.ne_unused)
  have hview₃ := view_eq_of_mem hmem₃ (q := z) (by rw [hzombie₃]; simp)
  -- all other slots are UNUSED, so `wait` can only find this child
  have hfind : zombieChild initproc s₃ = some z := by
    refine zombieChild_of_sole hparent₃ hzombie₃ fun r hr hzombie ↦ ?_
    by_cases hinit : r = initproc
    · rw [hinit, hinit₃.1] at hzombie
      cases hzombie
    · refine proc_mem_ne_none.mpr (by rw [hzombie]; simp) ?_
      rw [hmem₃]
      exact mem_of_unused (by rw [hother₂ r hr]; exact hother₁ r hinit hr)
  obtain ⟨t, ht⟩ := step_wait hs₃.reach.memOk hinit₃.1 hfind
  have htop₃ : (s₃.proc z).shmtop = usertop := by
    rw [← hztop₁]
    refine (congrArg ProcMem.shmtop hview₃).trans ?_
    rw [hz₂]
    rfl
  refine ⟨s₃, z, t, hs₃.sound, ht, hfind, by rw [hsz₃, htop₃]; decide, fun hwithin ↦ ?_⟩
  have hpte : (s₃.proc z).pgdir = (s₂.proc z).pgdir := congrArg ProcMem.pgdir hview₃
  have hlt := hwithin 1 (by rw [htop₃]; decide)
    (by rw [hpte]; exact hfull₂ hfull₁ 1 (by rw [hz₂, hzsz₁, hgrown]; decide))
  rw [hsz₃, hone] at hlt
  omega

/-- The page of the child beyond the size of the parent is lost. -/
theorem not_freed : ∃ s z t, Reachable (step kernelImage) (Booted kernelImage) s ∧
    step kernelImage (.wait initproc) s = some t ∧ zombieChild initproc s = some z ∧
    ¬(s.proc z).Freed t.freelist := by
  obtain ⟨s, z, t, hs, hstep, hz, -, hlarge⟩ := exists_larger_child
  have hok := hs.reach.memOk
  obtain ⟨hzombie, l, l', hleave, hdir, hfl⟩ := wait_frees hok hstep hz
  refine ⟨s, z, t, hs.reachable, hstep, hz, fun h ↦ hlarge ?_⟩
  refine within_of_freed hok hs.uses_le (by rw [hzombie]; simp) hleave hdir (fun f ↦ ?_) h
  rw [hfl, ← List.singleton_append, List.count_append, List.count_append, List.count_append]
  omega

/-- The reap of that child. -/
theorem freed_iff_larger_child : ∃ s z t, Sound kernelImage s ∧
    step kernelImage (.wait initproc) s = some t ∧ zombieChild initproc s = some z ∧
    ¬((s.proc z).Freed t.freelist ∧ (s.proc z).kstack ∈ t.freelist) := by
  obtain ⟨s, z, t, hs, hstep, hz, hfits, hlarge⟩ := exists_larger_child
  exact ⟨s, z, t, hs, hstep, hz, fun h ↦
    hlarge (((Sound.freed_iff hs initproc).1 z t hstep hz hfits).mp h)⟩

end CS537.Shm
