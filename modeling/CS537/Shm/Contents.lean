import CS537.Shm.Strings

/-!
# What `growproc` does to the contents of memory

`kfree` fills a frame with junk and writes the link of the free list into it; `allocuvm` clears the
frames it takes. The functions below give the contents of physical memory after the function of
`Vm` or `Kernel` they are named after, and follow it step by step. Page tables are values here too,
so the writes to them are left out.
-/

namespace CS537.Shm

variable {L : Link}

/-! ## Writes to frames -/

def InFrame (f y : ℕ) : Prop := f ≤ y ∧ y < f + pgsize

instance (f y : ℕ) : Decidable (InFrame f y) := inferInstanceAs (Decidable (_ ∧ _))

/-- `memset(f, b, PGSIZE)`. -/
def memset (f : ℕ) (b : BitVec 8) (mem : Phys) : Phys := fun y ↦ if InFrame f y then b else mem y

/-- `*(uint*)x = w`, little-endian. -/
def storeWord (x : ℕ) (w : BitVec 32) (mem : Phys) : Phys := fun y ↦
  if x ≤ y ∧ y < x + 4 then w.extractLsb' (8 * (y - x)) 8 else mem y

/-- `kfree(v)` with the free list `m`: junk, and `r->next = kmem.freelist`. -/
def kfreeBytes (v : ℕ) (m : Freelist) (mem : Phys) : Phys :=
  storeWord v (BitVec.ofNat 32 (m.headD 0)) (memset v 1 mem)

def deallocPagesBytes : ℕ → ℕ → Freelist → PageDir → Phys → Phys
  | 0, _, _, _, mem => mem
  | n + 1, v, m, d, mem =>
    match d.pte v with
    | none => deallocPagesBytes n (v + 1) m d mem
    | some p => deallocPagesBytes n (v + 1) (p.pa :: m) (d.setPte v none) (kfreeBytes p.pa m mem)

def deallocuvmBytes (oldsz newsz : ℕ) (m : Freelist) (d : PageDir) (mem : Phys) : Phys :=
  if oldsz ≤ newsz then mem
  else deallocPagesBytes (rounds (pageUp newsz) oldsz) (pageUp newsz) m d mem

def allocPagesBytes : ℕ → ℕ → Freelist → PageDir → Phys → Phys
  | 0, _, _, _, mem => mem
  | n + 1, v, m, d, mem =>
    match kalloc m with
    | none => mem
    | some (r, m) =>
      match mappages (v * pgsize) pgsize r true true m d with
      | .ok (m, d, _) => allocPagesBytes n (v + 1) m d (memset r 0 mem)
      | .error _ => mem

def allocuvmBytes (shmtop oldsz newsz : ℕ) (m : Freelist) (d : PageDir) (mem : Phys) : Phys :=
  if shmtop < newsz then mem
  else if newsz < oldsz then mem
  else
    let mem := allocPagesBytes (rounds (pageUp oldsz) newsz) (pageUp oldsz) m d mem
    match allocPages (rounds (pageUp oldsz) newsz) (pageUp oldsz) m d with
    | .ok (m, d, _, false) => deallocuvmBytes newsz oldsz m d mem
    | _ => mem

def growprocBytes (q : Slot) (n : BitVec 32) (s : Kernel) (mem : Phys) : Phys :=
  let p := s.proc q
  let newsz := (p.sz + n.toNat) % 2 ^ 32
  if 0 < n.toInt then allocuvmBytes p.shmtop p.sz newsz s.freelist p.pgdir mem
  else if n.toInt < 0 then deallocuvmBytes p.sz newsz s.freelist p.pgdir mem
  else mem

/-! ## Overwritten frames -/

/-- Outside the frames `F` the contents stay; inside they no longer depend on what was there. -/
structure Overwrites (F : List ℕ) (g : Phys → Phys) : Prop where
  other : ∀ mem y, (∀ f ∈ F, ¬InFrame f y) → g mem y = mem y
  inside : ∀ f ∈ F, ∀ y, InFrame f y → ∃ b, ∀ mem, g mem y = b

namespace Overwrites

variable {F G : List ℕ} {g h : Phys → Phys}

theorem id : Overwrites [] fun mem ↦ mem := ⟨fun _ _ _ ↦ rfl, by simp⟩

theorem comp (hg : Overwrites F g) (hh : Overwrites G h) :
    Overwrites (F ++ G) fun mem ↦ h (g mem) := by
  constructor
  · intro mem y hy
    rw [hh.other _ y fun f hf ↦ hy f (List.mem_append_right _ hf),
      hg.other _ y fun f hf ↦ hy f (List.mem_append_left _ hf)]
  · intro f hf y hy
    -- a byte that `h` leaves alone is still as `g` has left it
    by_cases hG : ∃ f' ∈ G, InFrame f' y
    · obtain ⟨f', hf', hy'⟩ := hG
      obtain ⟨b, hb⟩ := hh.inside f' hf' y hy'
      exact ⟨b, fun mem ↦ hb (g mem)⟩
    · have hout : ∀ f' ∈ G, ¬InFrame f' y := fun f' hf' hy' ↦ hG ⟨f', hf', hy'⟩
      have hF : f ∈ F := (List.mem_append.mp hf).resolve_right fun hfG ↦ hout f hfG hy
      obtain ⟨b, hb⟩ := hg.inside f hF y hy
      exact ⟨b, fun mem ↦ by rw [hh.other _ y hout, hb]⟩

theorem kfreeBytes (v : ℕ) (m : Freelist) : Overwrites [v] (kfreeBytes v m) := by
  have hword : ∀ y, v ≤ y ∧ y < v + 4 → InFrame v y := by
    intro y hy
    exact ⟨hy.1, by simp only [pgsize]; omega⟩
  constructor
  · intro mem y hy
    have hout := hy v (List.mem_singleton_self v)
    rw [CS537.Shm.kfreeBytes, storeWord, if_neg fun h ↦ hout (hword y h)]
    exact if_neg hout
  · intro f hf y hy
    rw [List.mem_singleton.mp hf] at hy
    by_cases hlink : v ≤ y ∧ y < v + 4
    · exact ⟨_, fun mem ↦ if_pos hlink⟩
    · refine ⟨1, fun mem ↦ ?_⟩
      rw [CS537.Shm.kfreeBytes, storeWord, if_neg hlink]
      exact if_pos hy

end Overwrites

/-! ## Which frames are overwritten -/

theorem deallocPagesBytes_overwrites {n v : ℕ} (m : Freelist) {d : PageDir} (hd : Space L d)
    (hv : v + n ≤ 160) :
    Overwrites ((List.range' v n).filterMap d.frames) (deallocPagesBytes n v m d) := by
  induction n generalizing v m d with
  | zero => exact .id
  | succ n ih =>
    rw [List.range'_succ]
    cases hp : d.pte v with
    | none =>
      have hfun : deallocPagesBytes (n + 1) v m d = deallocPagesBytes n (v + 1) m d := by
        funext mem
        rw [deallocPagesBytes, hp]
      rw [hfun, List.filterMap_cons_none (by rw [PageDir.frames, hp]; rfl)]
      exact ih m hd (by omega)
    | some p =>
      have hfun : deallocPagesBytes (n + 1) v m d = fun mem ↦ deallocPagesBytes n (v + 1)
          (p.pa :: m) (d.setPte v none) (kfreeBytes p.pa m mem) := by
        funext mem
        rw [deallocPagesBytes, hp]
      -- clearing the entry of `v` does not change the pages still to come
      have hrest := filterMap_frames_setPte (hd.isSome_tab (v := v) (by omega)) n none
      rw [hfun, List.filterMap_cons_some (b := p.pa) (by rw [PageDir.frames, hp]; rfl), ← hrest]
      exact (Overwrites.kfreeBytes p.pa m).comp
        (ih (p.pa :: m) (hd.setPte (v := v) (by omega) (by simp)) (by omega))

/-- The frames that are taken are cleared. -/
theorem allocPagesBytes_apply {n v : ℕ} (m : Freelist) {d : PageDir} (hd : Space L d)
    (hv : v + n ≤ 160) (hfree : ∀ u, v ≤ u → u < v + n → d.pte u = none)
    (hm : ∀ f ∈ m, L.Valid f) (mem : Phys) (y : ℕ) :
    allocPagesBytes n v m d mem y = if ∃ f ∈ m.take n, InFrame f y then 0 else mem y := by
  induction n generalizing v m d mem with
  | zero => simp [allocPagesBytes]
  | succ n ih =>
    cases m with
    | nil => simp [allocPagesBytes, kalloc]
    | cons r m =>
      have htab := hd.isSome_tab (v := v) (by omega)
      have hset := PageDir.setPte_pte d htab (some ⟨r, true, true⟩)
      have hspace := hd.setPte (v := v) (by omega) (p := some ⟨r, true, true⟩)
        (fun e he ↦ by cases he; exact ⟨hm r (by simp), rfl, rfl⟩)
      have hmap := mappages_one r (w := true) (u := true) htab (hfree v (by omega) (by omega)) m
      rw [allocPagesBytes, kalloc]
      simp only [hmap]
      rw [ih m hspace (by omega) (fun u h1 h2 ↦ ?_) (fun f hf ↦ hm f (List.mem_cons_of_mem _ hf)),
        List.take_succ_cons]
      · by_cases hr : InFrame r y
        · simp [memset, hr]
        · simp [memset, hr]
      · rw [hset, Function.update_of_ne (by omega)]
        exact hfree u (by omega) (by omega)

theorem allocPagesBytes_overwrites {n v : ℕ} (m : Freelist) {d : PageDir} (hd : Space L d)
    (hv : v + n ≤ 160) (hfree : ∀ u, v ≤ u → u < v + n → d.pte u = none)
    (hm : ∀ f ∈ m, L.Valid f) : Overwrites (m.take n) (allocPagesBytes n v m d) := by
  have happly := allocPagesBytes_apply m hd hv hfree hm
  refine ⟨fun mem y hy ↦ ?_, fun f hf y hy ↦ ⟨0, fun mem ↦ ?_⟩⟩
  · rw [happly, if_neg]
    rintro ⟨f, hf, hin⟩
    exact hy f hf hin
  · rw [happly, if_pos ⟨f, hf, hy⟩]

end CS537.Shm
