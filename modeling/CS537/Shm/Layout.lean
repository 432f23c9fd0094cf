import CS537.Shm.Success

/-!
# The layout of the address spaces

The invariant of the memory, read in terms of the kernel: where the size, `shmtop` and the attached
regions of a process lie, and that the processes that have a region attached see the same frames.
-/

open Finset Function

namespace CS537.Shm

variable {L : Link}

/-- RUNNABLE, RUNNING or SLEEPING. -/
def Proc.Live (p : Proc) : Prop :=
  p.state = .runnable ∨ p.state = .running ∨ p.state = .sleeping

theorem Proc.Live.ne_unused {p : Proc} (h : p.Live) : p.state ≠ .unused := by
  rcases h with h | h | h <;> simp [h]

/-- The keys of the attached regions. -/
def Proc.attachedKeys (p : Proc) : Finset Key := {k | p.shmemVaddr k ≠ 0}

theorem Proc.mem_attachedKeys {p : Proc} {k : Key} : k ∈ p.attachedKeys ↔ p.shmemVaddr k ≠ 0 := by
  rw [Proc.attachedKeys, mem_filter]
  exact and_iff_right (mem_univ k)

/-- The addresses of the region `k` in the process `p`. -/
def Kernel.region (s : Kernel) (p : Proc) (k : Key) : Finset ℕ :=
  Ico (p.shmemVaddr k) (p.shmemVaddr k + pgsize * s.shmemPages k)

/-- The layout of the address space of `p`. -/
structure Kernel.Layout (s : Kernel) (p : Proc) : Prop where
  sz_le : p.sz ≤ p.shmtop
  top_le : p.shmtop ≤ usertop
  top_eq : p.shmtop + pgsize * ∑ k ∈ p.attachedKeys, s.shmemPages k = usertop
  aligned : ∀ k ∈ p.attachedKeys, p.shmemVaddr k % pgsize = 0
  disjoint : (p.attachedKeys : Set Key).PairwiseDisjoint (s.region p)
  cover : p.attachedKeys.biUnion (s.region p) = Ico p.shmtop usertop
  shared : ∀ v, p.shmtop ≤ v * pgsize → v * pgsize < usertop →
    ∃ f, p.pgdir.pte v = some ⟨f, true, true⟩
  gap : ∀ v, pgRoundUp p.sz ≤ v * pgsize → v * pgsize < p.shmtop → p.pgdir.pte v = none

/-! ## From the invariant -/

section View

variable {s : Kernel} {p : Proc}

theorem base_view (k : Key) (h : k ∈ p.attachedKeys) : p.view.base k = some (p.shmemVaddr k) :=
  if_neg (Proc.mem_attachedKeys.mp h)

theorem base_view_eq_some {k : Key} {b : ℕ} (h : p.view.base k = some b) :
    k ∈ p.attachedKeys ∧ b = p.shmemVaddr k := by
  rw [ProcMem.base] at h
  split at h
  · cases h
  · rename_i hk
    exact ⟨Proc.mem_attachedKeys.mpr hk, (Option.some.inj h).symm⟩

theorem region_eq (k : Key) :
    s.region p k = Ico (p.shmemVaddr k) (p.shmemVaddr k + regionLen s.shmemPages k) := by
  rw [Kernel.region, regionLen, Nat.mul_comm]

variable (h : ProcOk L s.shmemPages s.shmemPaddr p.view)

include h

theorem sum_pages : p.shmtop + pgsize * ∑ k ∈ p.attachedKeys, s.shmemPages k = usertop := by
  have htotal : p.shmtop + ∑ k, (if (p.view.base k).isSome then regionLen s.shmemPages k else 0)
      = usertop := h.tiling.total
  rw [← htotal, Finset.mul_sum, Proc.attachedKeys, sum_filter]
  congr 1
  refine sum_congr rfl fun k _ ↦ ?_
  by_cases hk : p.shmemVaddr k ≠ 0
  · rw [if_pos hk, base_view k (Proc.mem_attachedKeys.mpr hk), regionLen, Nat.mul_comm]
    rfl
  · have hnone : p.view.base k = none := if_pos (not_not.mp hk)
    rw [if_neg hk, hnone]
    rfl

theorem region_disjoint : (p.attachedKeys : Set Key).PairwiseDisjoint (s.region p) := by
  intro j hj k hk hjk
  have hsep := h.tiling.disjoint j k _ _ hjk (base_view j hj) (base_view k hk)
  rw [Function.onFun, region_eq, region_eq, Finset.disjoint_left]
  intro x hxj hxk
  rw [mem_Ico] at hxj hxk
  omega

theorem region_cover : p.attachedKeys.biUnion (s.region p) = Ico p.shmtop usertop := by
  ext x
  rw [mem_biUnion, mem_Ico]
  constructor
  · rintro ⟨k, hk, hx⟩
    obtain ⟨h1, h2, -⟩ := h.tiling.fits k _ (base_view k hk)
    rw [region_eq, mem_Ico] at hx
    have htop : p.shmtop ≤ p.shmemVaddr k := h1
    omega
  · rintro ⟨h1, h2⟩
    obtain ⟨k, b, hb, h3, h4⟩ := h.tiling.cover x h1 h2
    obtain ⟨hk, rfl⟩ := base_view_eq_some hb
    refine ⟨k, hk, ?_⟩
    rw [region_eq, mem_Ico]
    exact ⟨h3, h4⟩

theorem ProcOk.layout : s.Layout p := by
  have halign : p.shmtop % pgsize = 0 := h.top_aligned
  refine ⟨h.sz_le, h.top_le, sum_pages h, fun k _ ↦ h.aligned k, region_disjoint h, region_cover h,
    fun v h1 h2 ↦ ?_, fun v h1 h2 ↦ ?_⟩
  · obtain ⟨k, j, -, -, -, hpte⟩ := h.shared (v := v)
      (by simp only [Proc.view, pgsize] at *; omega) (by simp only [pgsize, usertop] at *; omega)
    exact ⟨_, hpte⟩
  · refine h.gap v ?_ ?_
    · rw [pgRoundUp] at h1
      exact Nat.le_of_mul_le_mul_right h1 (by decide)
    · simp only [Proc.view, pgsize] at *
      omega

end View

/-! ## Coherence -/

/-- The physical address of a user address, by the page table. -/
def PageDir.translate (d : PageDir) (a : ℕ) : Option ℕ :=
  (d.frames (a / pgsize)).map fun f ↦ f + a % pgsize

/-- The byte at the offset `o` of a region lies in the frame recorded for its page; the rows are
in reverse order. -/
theorem ProcOk.translate {s : Kernel} {p : Proc} {k : Key} {o : ℕ}
    (h : ProcOk L s.shmemPages s.shmemPaddr p.view) (hk : p.shmemVaddr k ≠ 0)
    (ho : o < pgsize * s.shmemPages k) :
    p.pgdir.translate (p.shmemVaddr k + o)
      = some (s.shmemPaddr k (s.shmemPages k - 1 - o / pgsize) + o % pgsize) := by
  have halign : p.shmemVaddr k % pgsize = 0 := h.aligned k
  have hpage : (p.shmemVaddr k + o) / pgsize = p.shmemVaddr k / pgsize + o / pgsize := by
    simp only [pgsize] at *
    omega
  have hbyte : (p.shmemVaddr k + o) % pgsize = o % pgsize := by
    simp only [pgsize] at *
    omega
  have hentry : p.pgdir.pte (p.shmemVaddr k / pgsize + o / pgsize) = _ :=
    h.entry k hk (o / pgsize) (by simp only [pgsize] at *; omega)
  rw [PageDir.translate, hpage, hbyte, PageDir.frames, hentry]
  rfl

/-! ## Reachable states -/

/-- The first process runs with one page and a region of one page. -/
theorem exists_attached : ∃ s k, Unreaped kernelImage s ∧ s.Ready initproc ∧
    (s.proc initproc).sz = pgsize ∧ (s.proc initproc).shmtop = usertop - pgsize ∧
    (s.proc initproc).shmemVaddr = update (fun _ ↦ 0) k (usertop - pgsize) ∧
    s.shmemPages k = 1 ∧ (s.shmemCount = update (fun _ ↦ 0) k 1) ∧
    s.freelist.length + 30 = kernelImage.frames.length ∧
    (∀ q, q ≠ initproc → (s.proc q).state = .unused) ∧ (s.proc initproc).Full := by
  obtain ⟨s₁, hs₁, hready₁, hlen₁, hsz₁, htop₁, hvaddr₁, hother₁, hcount₁, hfull₁⟩ :=
    exists_running_unreaped (L := kernelImage) (by rw [length_frames_kernelImage]; decide)
  let k : Key := ⟨0, by decide⟩
  have hnum : (1#32).toNat = 1 := rfl
  have hlen : 1 ≤ s₁.freelist.length := by
    rw [length_frames_kernelImage] at hlen₁
    omega
  obtain ⟨s₂, d₂, hstep₂, hproc₂, hother₂, hlen₂, hcount₂, hpages₂, hready₂, hfull₂⟩ :=
    step_shmgetat 0#32 1#32 (k := k) hs₁.reach.memOk hready₁ rfl (by decide)
      (by rw [hcount₁]) (by rw [hvaddr₁]) (by rw [hsz₁, htop₁]; decide) (by rw [hnum]; exact hlen)
  rw [hnum] at hlen₂ hpages₂
  refine ⟨s₂, k, hs₁.step hstep₂ (count_lt_of_zero hcount₁), hready₂, by rw [hproc₂, hsz₁], ?_, ?_,
    by rw [hpages₂, update_self], by rw [hcount₂, hcount₁], by omega, fun q hq ↦ ?_,
    hfull₂ hfull₁⟩
  · rw [hproc₂, htop₁, hnum, one_mul]
  · rw [hproc₂, htop₁, hvaddr₁, hnum, one_mul]
  · rw [hother₂ q hq]
    exact hother₁ q hq

/-- The first process runs with one page and a region of one page; its child has the same. -/
theorem exists_two_holders : ∃ s z k, Unreaped kernelImage s ∧ z ≠ initproc ∧
    s.Ready initproc ∧ (s.proc z).Live ∧ (s.proc initproc).sz = pgsize ∧
    (s.proc initproc).shmtop = usertop - pgsize ∧
    (s.proc initproc).shmemVaddr = update (fun _ ↦ 0) k (usertop - pgsize) ∧
    (s.proc z).shmemVaddr = (s.proc initproc).shmemVaddr ∧ s.shmemPages k = 1 ∧
    (s.proc initproc).Full ∧ 14 ≤ s.freelist.length := by
  obtain ⟨s₂, k, hs₂, hready₂, hsz₂, htop₂, hvaddr₂, hpages₂, hcount₂, hlen₂, hother₂, hfull₂⟩ :=
    exists_attached
  rw [length_frames_kernelImage] at hlen₂
  have hone : pageUp pgsize = 1 := by decide
  have hlt₂ : ∀ j, s₂.shmemCount j + 1 < 2 ^ 31 := fun j ↦ by
    rw [hcount₂]
    by_cases hj : j = k
    · rw [hj, update_self]
      decide
    · rw [update_of_ne hj]
      decide
  obtain ⟨s₃, z, d₃, r₃, hstep₃, hz, hraised, hproc₃, -, hlen₃⟩ :=
    step_fork hs₂.reach.memOk hready₂ hfull₂ (fun j _ ↦ hlt₂ j)
      ⟨⟨1, by decide⟩, hother₂ _ (by decide)⟩ (by rw [hsz₂, hone]; omega)
  have hne : z ≠ initproc := by
    rintro rfl
    exact hready₂.ne_unused hz
  have hinit₃ := hraised.other initproc hne.symm
  refine ⟨s₃, z, k, hs₂.step hstep₃ hlt₂, hne, ?_, ?_, by rw [hinit₃, hsz₂], by rw [hinit₃, htop₂],
    by rw [hinit₃, hvaddr₂], by rw [hproc₃, hinit₃], by rw [hraised.pages, hpages₂], ?_, ?_⟩
  · rw [Kernel.Ready, hinit₃]
    exact hready₂
  · rw [hproc₃]
    exact .inl rfl
  · rw [hinit₃]
    exact hfull₂
  · rw [hsz₂, hone] at hlen₃
    omega

/-- In every state that calls within bounds reach, the size of a process is at most its `shmtop`, its
regions tile the addresses from there to `USERTOP`, all of them mapped, and nothing is mapped in
between. -/
theorem Reach.layout {s : Kernel} (hs : Reach L s) {q : Slot} (hq : (s.proc q).Live) :
    s.Layout (s.proc q) :=
  (hs.memOk.procs q _ (mem_proc hq.ne_unused)).layout

/-- There two processes that have a region attached see the same byte at the same offset, in a frame
recorded for the region. -/
theorem Reach.coherent {s : Kernel} (hs : Reach L s) {k : Key} {p q : Slot}
    (hp : (s.proc p).Live) (hq : (s.proc q).Live) (hpk : (s.proc p).shmemVaddr k ≠ 0)
    (hqk : (s.proc q).shmemVaddr k ≠ 0) {o : ℕ} (ho : o < pgsize * s.shmemPages k) :
    ∃ i, i < s.shmemPages k ∧ ∃ b, b < pgsize ∧
      (s.proc p).pgdir.translate ((s.proc p).shmemVaddr k + o) = some (s.shmemPaddr k i + b) ∧
      (s.proc q).pgdir.translate ((s.proc q).shmemVaddr k + o) = some (s.shmemPaddr k i + b) := by
  have hokp := hs.memOk.procs p _ (mem_proc hp.ne_unused)
  have hokq := hs.memOk.procs q _ (mem_proc hq.ne_unused)
  refine ⟨s.shmemPages k - 1 - o / pgsize, ?_, o % pgsize, Nat.mod_lt _ (by decide),
    hokp.translate hpk ho, hokq.translate hqk ho⟩
  simp only [pgsize] at *
  omega

end CS537.Shm
