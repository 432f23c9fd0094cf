import CS537.Shm.Invariant

/-!
# Boot

`kinit` puts every frame from the end of the kernel image to `PHYSTOP` on the free list, once.
What `boot` has taken from it when `userinit` returns does not come back. The first process has one
page and no shared region, so the invariant holds, and with `Effect.memOk` it holds in every
reachable state.
-/

open Finset Function Holding Tally

namespace CS537.Shm

variable {L : Link}

/-! ## `kinit` -/

/-- The frames of the allocator, in the order of the list that `kinit` makes. -/
def Link.frames (L : Link) : List ℕ :=
  ((List.range' (pageUp L.kend) (phystop / pgsize - pageUp L.kend)).map (· * pgsize)).reverse

theorem foldlM_kfree {l : List ℕ} (h : ∀ v ∈ l, L.Valid (v * pgsize)) (m : Freelist) :
    l.foldlM (fun m v ↦ kfree L (v * pgsize) m) m = .ok ((l.map (· * pgsize)).reverse ++ m) := by
  induction l generalizing m with
  | nil => rfl
  | cons v l ih =>
    rw [List.foldlM_cons, kfree_of_valid (h v (by simp)), ok_bind,
      ih (fun u hu ↦ h u (by simp [hu]))]
    simp

theorem valid_of_page {v : ℕ} (h1 : pageUp L.kend ≤ v) (h2 : v < phystop / pgsize) :
    L.Valid (v * pgsize) := by
  simp only [Link.Valid, pageUp, pgsize, phystop] at *
  omega

theorem kinit_eq (L : Link) : kinit L = .ok L.frames := by
  rw [kinit, foldlM_kfree, List.append_nil, Link.frames]
  intro v hv
  rw [List.mem_range'_1] at hv
  exact valid_of_page hv.1 (by omega)

theorem Link.valid_frames {f : ℕ} (h : f ∈ L.frames) : L.Valid f := by
  rw [Link.frames, List.mem_reverse, List.mem_map] at h
  obtain ⟨v, hv, rfl⟩ := h
  rw [List.mem_range'_1] at hv
  exact valid_of_page hv.1 (by omega)

theorem Link.nodup_frames (L : Link) : L.frames.Nodup := by
  rw [Link.frames, List.nodup_reverse]
  refine List.Nodup.map (fun a b hab ↦ ?_) List.nodup_range'
  simp only [pgsize] at hab
  omega

theorem Link.length_frames (L : Link) : L.frames.length = 4096 - pageUp L.kend := by
  rw [Link.frames, List.length_reverse, List.length_map, List.length_range']
  rfl

/-! ## `userinit` -/

theorem slots_head : ∃ l, slots = initproc :: l := by
  rw [slots]
  exact ⟨_, List.finRange_succ⟩

/-- The state that `userinit` leaves: the free list `m`, and the first process with the directory
`d` and the stack `r`. -/
def firstState (m : Freelist) (d : PageDir) (r : ℕ) : Kernel :=
  { blank m with
    proc := update (blank m).proc initproc
      { (blank m).proc initproc with
        sz := pgsize
        pgdir := d
        kstack := r
        state := .runnable
        pid := 1
        shmtop := usertop }
    nextpid := 2 }

theorem firstState_init (m : Freelist) (d : PageDir) (r : ℕ) :
    (firstState m d r).proc initproc
      = ⟨pgsize, d, r, .runnable, 1, none, none, false, false, fun _ ↦ 0, usertop⟩ := by
  simp only [firstState, update_self]
  rfl

theorem firstState_other (m : Freelist) (d : PageDir) (r : ℕ) {q : Slot} (hq : q ≠ initproc) :
    ((firstState m d r).proc q).state = .unused := by
  simp only [firstState, update_of_ne hq]
  rfl

theorem allocproc_blank (m : Freelist) :
    allocproc (blank m) = match m with
      | [] => (((blank []).bumpPid.setProc initproc
          { (blank []).proc initproc with state := .unused, pid := 1, kstack := 0 }), none)
      | r :: m => ((((blank (r :: m)).bumpPid.setFreelist m).setProc initproc
          (((blank (r :: m)).proc initproc).embryo 1 r)), some initproc) := by
  obtain ⟨l, hl⟩ := slots_head
  rw [allocproc, hl]
  cases m <;> rfl

/-- `userinit` needs 15 frames: the stack, the directory with its page tables, and the page. -/
theorem userinit_outcome (L : Link) (m : Freelist) :
    (m.length < 15 ∧ ∃ e, userinit L (blank m) = .error e) ∨
    ∃ r m₁ d r₀ m₂, m = r :: m₁ ∧ Fresh L m₁ (r₀ :: m₂) d ∧
      userinit L (blank m) = .ok (firstState m₂ (d.setPte 0 (some ⟨r₀, true, true⟩)) r) := by
  rw [userinit, allocproc_blank]
  cases m with
  | nil => exact .inl ⟨by simp, _, rfl⟩
  | cons r m₁ =>
    simp only [Kernel.setProc, Kernel.setFreelist, Kernel.bumpPid]
    rcases setupkvm_outcome L m₁ with ⟨hsetup, hlen⟩ | ⟨m₂, d, hsetup, hfresh⟩
    · rw [hsetup, ok_bind]
      exact .inl ⟨by simp; omega, _, rfl⟩
    rw [hsetup, ok_bind]
    have hlen := hfresh.length
    cases m₂ with
    | nil => exact .inl ⟨by simp at hlen ⊢; omega, _, rfl⟩
    | cons r₀ m₂ =>
      refine .inr ⟨r, m₁, d, r₀, m₂, rfl, hfresh, ?_⟩
      have htab : (d.tab (0 / 1024)).isSome := (hfresh.tab _).mpr (.inl (by decide))
      have hnone : d.pte 0 = none := by
        rw [hfresh.pte, kernelPte_user L (by decide)]
      have hmap := mappages_one r₀ (w := true) (u := true) htab hnone m₂
      rw [Nat.zero_mul] at hmap
      simp only [inituvm, kalloc, hmap, ok_bind]
      refine congrArg Except.ok ?_
      rw [firstState, Kernel.mk.injEq]
      refine ⟨rfl, ?_, rfl, rfl, rfl, rfl⟩
      rw [update_self, update_idem]
      rfl

/-! ## `boot` -/

theorem boot_eq_ok {ncpu : ℕ} {s : Kernel} (h : boot L ncpu = .ok s) :
    ∃ m, m <:+ L.frames ∧ userinit L (blank m) = .ok s := by
  rw [boot, kinit_eq, ok_bind] at h
  cases hfl : L.frames with
  | nil =>
    rw [hfl] at h
    cases h
  | cons r m =>
    rw [hfl] at h
    simp only [kalloc] at h
    -- `kvmalloc` does not look at what `setupkvm` returns
    rcases setupkvm_outcome L m with ⟨hsetup, -⟩ | ⟨m', d, hsetup, hfresh⟩
    · rw [hsetup, ok_bind] at h
      refine ⟨_, ?_, h⟩
      rw [List.drop_nil]
      exact List.nil_suffix
    · rw [hsetup, ok_bind] at h
      refine ⟨_, ?_, h⟩
      obtain ⟨l, rfl, -, -⟩ := hfresh.taken
      refine (List.drop_suffix _ m').trans ⟨r :: d.frame :: l, by simp⟩

/-- With one processor `boot` has taken 14 frames before `userinit`. -/
theorem boot_one (h : 14 ≤ L.frames.length) :
    ∃ m, m.length + 14 = L.frames.length ∧ boot L 1 = userinit L (blank m) := by
  rw [boot, kinit_eq, ok_bind]
  cases hfl : L.frames with
  | nil => simp [hfl] at h
  | cons r m =>
    rw [hfl, List.length_cons] at h
    obtain ⟨m', d, hsetup, hfresh⟩ := setupkvm_of_le (L := L) (m := m) (by omega)
    have hlen := hfresh.length
    refine ⟨m', by rw [List.length_cons]; omega, ?_⟩
    simp only [kalloc, hsetup, ok_bind]
    rfl

/-- The booted states: the frames of the first process come from the allocator. -/
theorem Booted.firstState {s : Kernel} (h : Booted L s) :
    ∃ r m₁ d r₀ m₂, (r :: m₁) <:+ L.frames ∧ Fresh L m₁ (r₀ :: m₂) d ∧
      s = firstState m₂ (d.setPte 0 (some ⟨r₀, true, true⟩)) r := by
  obtain ⟨ncpu, h⟩ := h
  obtain ⟨m, hm, h⟩ := boot_eq_ok h
  rcases userinit_outcome L m with ⟨-, e, he⟩ | ⟨r, m₁, d, r₀, m₂, rfl, hfresh, hok⟩
  · rw [he] at h
    cases h
  · rw [hok] at h
    exact ⟨r, m₁, d, r₀, m₂, hm, hfresh, (Except.ok.inj h).symm⟩

/-! ## The invariant -/

theorem firstState_mem (m : Freelist) (d : PageDir) (r : ℕ) :
    (firstState m d r).mem = ⟨m, update (fun _ ↦ none) initproc
      (some ⟨pgsize, d, r, fun _ ↦ 0, usertop⟩), fun _ ↦ 0, fun _ ↦ 0, fun _ _ ↦ 0⟩ := by
  rw [Kernel.mem]
  congr 1
  funext q
  by_cases hq : q = initproc
  · subst hq
    rw [update_self, firstState_init]
    rfl
  · rw [update_of_ne hq]
    exact mem_of_unused (firstState_other m d r hq)

theorem firstState_attached (m : Freelist) (d : PageDir) (r : ℕ) (k : Key) :
    (firstState m d r).mem.attached k = 0 := by
  refine tally_eq_zero fun q ↦ ?_
  rw [firstState_mem]
  by_cases hq : q = initproc
  · subst hq
    simp only [update_self]
    rfl
  · simp only [update_of_ne hq]
    rfl

theorem Booted.memOk {s : Kernel} (h : Booted L s) : MemOk L s.mem := by
  obtain ⟨r, m₁, d, r₀, m₂, hsuffix, hfresh, rfl⟩ := h.firstState
  have hvalid : ∀ f ∈ r :: m₁, L.Valid f := fun f hf ↦ L.valid_frames (hsuffix.subset hf)
  obtain ⟨hspace, hrest⟩ := hfresh.space (fun f hf ↦ hvalid f (by simp [hf]))
  have hset := d.setPte_pte (hspace.isSome_tab (v := 0) (by decide)) (some ⟨r₀, true, true⟩)
  have hnone : ∀ v, v < 160 → d.pte v = none := fun v hv ↦ by
    rw [hfresh.pte, kernelPte_user L hv]
  have hattached := firstState_attached m₂ (d.setPte 0 (some ⟨r₀, true, true⟩)) r
  rw [firstState_mem] at hattached ⊢
  refine ⟨fun f hf ↦ hrest f (by simp [hf]), fun q p hq ↦ ?_, fun k ↦ Nat.zero_le _,
    fun k hk ↦ absurd hk (lt_irrefl _), fun _ _ _ ↦ rfl, fun k ↦ by rw [hattached]; rfl,
    fun _ ↦ show (0 : ℤ) < 2 ^ 31 by decide⟩
  simp only at hq
  -- only the first process has memory
  by_cases hq' : q = initproc
  · subst hq'
    rw [update_self] at hq
    obtain rfl := Option.some.inj hq
    refine ⟨hspace.setPte (by decide) fun p hp ↦ ?_, hvalid r (by simp), show 0 < pgsize by decide,
      show pgsize ≤ usertop by decide, show usertop % pgsize = 0 by decide, fun _ ↦ rfl, ?_,
      fun v h1 h2 ↦ ?_, fun k hk ↦ absurd rfl hk⟩
    · obtain rfl := Option.some.inj hp
      exact ⟨hrest r₀ (by simp), rfl, rfl⟩
    · exact Tiling.empty (regionLen fun _ ↦ 0) usertop
    · simp only at h1 h2 ⊢
      have h160 : usertop / pgsize = 160 := by decide
      have hone : pageUp pgsize = 1 := by decide
      rw [hset, update_of_ne (by omega)]
      exact hnone v (by omega)
  · rw [update_of_ne hq'] at hq
    cases hq

/-- **The invariant of the kernel's memory holds in every reachable state.** -/
theorem Reach.memOk {s : Kernel} (h : Reach L s) : MemOk L s.mem := by
  refine Transition.ReachableBy.invariant (P := fun s ↦ MemOk L s.mem) h
    (fun s hs ↦ Booted.memOk hs) ?_
  intro s a t hok hstep _
  exact (step_effect hok hstep).memOk hok

end CS537.Shm
