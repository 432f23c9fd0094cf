import CS537.Shm.Frames

/-!
# When `exec` fails

Every failure exit of `exec` goes through `freevm`, which takes the number of pages from the running
process and not from the image. Pages of the image above that number are lost, and so is what
`setupkvm` had taken when it ran out of frames. `Undone` says when neither happens.
-/

open Finset Function Holding Transition

namespace CS537.Shm

variable {L : Link}

/-! ## The sizes of the image -/

/-- If there is room for the stack page, an image of the size `sz` has at most `limit` pages with
it. -/
def StackWithin (top limit : ℕ) (frames : Freelist) (sz : ℕ) : Prop :=
  Fits top frames (pgRoundUp sz) (pgRoundUp sz + pgsize) →
    pageUp (pgRoundUp sz + pgsize) ≤ limit

/-- No size that is granted to the image takes more than `limit` pages: `n` headers from `off` on,
for an image that has the size `sz` so far, and then the stack page. -/
def SizesWithin (top limit : ℕ) (f : File) (frames : Freelist) : ℕ → ℕ → ℕ → Prop
  | 0, _, sz => StackWithin top limit frames sz
  | n + 1, off, sz =>
    readi f.size off proghdrSize = some proghdrSize →
      if (f.proghdr off).type ≠ 1 then
        SizesWithin top limit f frames n ((off + proghdrSize) % 2 ^ 32) sz
      else (f.proghdr off).Taken top frames sz →
        pageUp (max sz (f.proghdr off).newsz) ≤ limit ∧
        ((f.proghdr off).Complete f → SizesWithin top limit f frames n
          ((off + proghdrSize) % 2 ^ 32) (max sz (f.proghdr off).newsz))

/-- The image has a page that `freevm` does not get to when it frees `limit` pages. -/
def Image.Beyond (im : Image) (limit : ℕ) : Prop :=
  ∃ v, limit ≤ v ∧ v < 160 ∧ (im.pgdir.pte v).isSome

section Sizes

variable {top limit : ℕ} {m₀ m₁ : Freelist} {im im' : Image} {f : File}

theorem Image.Beyond.congr (h : im'.pgdir.pte = im.pgdir.pte) :
    im'.Beyond limit ↔ im.Beyond limit := by
  rw [Image.Beyond, h, Image.Beyond]

theorem ImageOk.beyond_iff (h : ImageOk L top m₀ m₁ im) (htop : top ≤ usertop) :
    im.Beyond limit ↔ limit < pageUp im.sz := by
  obtain ⟨l, hpages⟩ := h.pages
  have h160 := pageUp_le (h.sz_le.trans htop)
  constructor
  · rintro ⟨v, h1, h2, hv⟩
    by_contra hle
    rw [hpages.gap (by omega) h2] at hv
    cases hv
  · intro hlt
    refine ⟨limit, le_rfl, by omega, ?_⟩
    rw [hpages.pte limit (by omega), List.getElem?_eq_getElem (by rwa [hpages.length])]
    rfl

/-- An image that gives up among the headers is too large exactly if it was so before, or if a size
that was granted is. -/
theorem loadSegments_beyond (limit : ℕ) (h : ImageOk L top m₀ m₁ im) (hm : ∀ f ∈ m₁, L.Valid f)
    (htop : top ≤ usertop) {n off : ℕ} {b : Bool}
    (hload : loadSegments L top f n off im = .ok (im', b)) :
    (limit < pageUp im.sz ∨ ¬SizesWithin top limit f m₁ n off im.sz) ↔
      if b then limit < pageUp im'.sz ∨ ¬StackWithin top limit m₁ im'.sz
      else im'.Beyond limit := by
  induction n generalizing off im with
  | zero =>
    obtain ⟨rfl, rfl⟩ := Prod.mk.inj (Except.ok.inj hload)
    exact Iff.rfl
  | succ n ih =>
    rw [loadSegments] at hload
    rw [SizesWithin]
    by_cases hread : readi f.size off proghdrSize = some proghdrSize
    · rw [if_neg (not_not.mpr hread)] at hload
      rw [forall_prop_of_true hread]
      by_cases htype : (f.proghdr off).type ≠ 1
      · rw [if_pos htype] at hload ⊢
        exact ih h hload
      · rw [if_neg htype] at hload ⊢
        obtain ⟨⟨im₁, b₁⟩, hseg, hload⟩ := bind_eq_ok hload
        obtain ⟨hb, hgrown, hsame⟩ := loadSegment_ret h hm htop (f.proghdr_offset_lt off) hseg
        by_cases htaken : (f.proghdr off).Taken top m₁ im.sz
        · obtain ⟨hok, hsz⟩ := hgrown htaken
          have hmono := pageUp_mono (le_max_left im.sz (f.proghdr off).newsz)
          rw [forall_prop_of_true htaken]
          cases b₁ with
          | false =>
            obtain ⟨rfl, rfl⟩ := Prod.mk.inj (Except.ok.inj hload)
            have hnot : ¬(f.proghdr off).Complete f := fun hc ↦ by cases hb.mpr ⟨htaken, hc⟩
            rw [forall_prop_of_false hnot, and_true, not_le, if_neg Bool.false_ne_true,
              hok.beyond_iff htop, hsz]
            omega
          | true =>
            rw [forall_prop_of_true (hb.mp rfl).2, ← ih hok hload, hsz, not_and_or, not_le,
              ← or_assoc]
            exact or_congr_left (by omega)
        · -- what is refused leaves the image as it is
          obtain rfl : b₁ = false := Bool.eq_false_iff.mpr fun hb' ↦ htaken (hb.mp hb').1
          obtain ⟨rfl, rfl⟩ := Prod.mk.inj (Except.ok.inj hload)
          rw [forall_prop_of_false htaken, not_true, or_false, if_neg Bool.false_ne_true,
            Image.Beyond.congr (hsame htaken), h.beyond_iff htop]
    · rw [if_pos hread] at hload
      obtain ⟨rfl, rfl⟩ := Prod.mk.inj (Except.ok.inj hload)
      rw [forall_prop_of_false hread, not_true, or_false, if_neg Bool.false_ne_true,
        h.beyond_iff htop]

/-- The image that `exec` gives up. -/
theorem buildImage_beyond {m : Freelist} {d : PageDir} (h : ImageOk L top m₀ m ⟨m, d, 0, []⟩)
    (hm : ∀ f ∈ m, L.Valid f) (htop : top ≤ usertop) (halign : top % pgsize = 0) {argv : List Arg}
    (hbuild : buildImage L top f argv m d = .ok (im, false)) :
    im.Beyond limit ↔ ¬SizesWithin top limit f m f.elfhdr.phnum f.elfhdr.phoff 0 := by
  rw [buildImage] at hbuild
  obtain ⟨⟨im₁, b₁⟩, hload, hbuild⟩ := bind_eq_ok hbuild
  have hbeyond := loadSegments_beyond limit h hm htop hload
  have hzero : ¬limit < pageUp 0 := by
    rw [show pageUp 0 = 0 by decide]
    exact Nat.not_lt_zero limit
  rw [or_iff_right hzero] at hbeyond
  cases b₁ with
  | false =>
    obtain ⟨rfl, -⟩ := Prod.mk.inj (Except.ok.inj hbuild)
    exact hbeyond.symm
  | true =>
    have hok := ((loadSegments_memory h htop hload).2 rfl).round halign
    have hmod : (pgRoundUp im₁.sz + pgsize) % 2 ^ 32 = pgRoundUp im₁.sz + pgsize := by
      have hle := hok.sz_le.trans htop
      simp only [usertop, pgsize] at *
      omega
    obtain ⟨im₂, l, hgrow, -, -, hcases⟩ :=
      grow_outcome (pgRoundUp im₁.sz + pgsize) hok htop
    simp only [hmod, hgrow, ok_bind] at hbuild
    have hup := pageUp_pgRoundUp im₁.sz
    rw [hbeyond, if_pos rfl, StackWithin]
    rcases hcases with ⟨hnone, hnot, hpte⟩ | ⟨hsz, hfits, hok₂⟩
    · rw [if_pos hnone] at hbuild
      obtain ⟨rfl, -⟩ := Prod.mk.inj (Except.ok.inj hbuild)
      rw [forall_prop_of_false hnot, not_true, or_false, Image.Beyond.congr hpte,
        hok.beyond_iff htop, hup]
    · have hpos := hfits.2.1
      rw [if_neg (by omega)] at hbuild
      obtain ⟨b, -, hbuild⟩ := bind_eq_ok hbuild
      obtain ⟨rfl, -⟩ := Prod.mk.inj (Except.ok.inj hbuild)
      have hmax : im₂.sz = pgRoundUp im₁.sz + pgsize :=
        hsz.trans (max_eq_right (Nat.le_add_right _ _))
      have hmono := pageUp_mono (Nat.le_add_right (pgRoundUp im₁.sz) pgsize)
      rw [forall_prop_of_true hfits, hok₂.beyond_iff htop, hmax]
      omega

end Sizes

/-! ## What is left of a failed `exec` -/

/-- The processes, the counters of the regions and the free frames are what they were. -/
structure Unchanged (s t : Kernel) : Prop where
  proc : t.proc = s.proc
  shmemCount : t.shmemCount = s.shmemCount
  freelist : t.freelist.Perm s.freelist

/-- What `exec` gives up is given back: it is no executable, or there is not one free frame, or the
address space can be set up and the image gets no more pages than the process has. -/
def Undone (s : Kernel) (q : Slot) (file : Option File) : Prop :=
  ∀ f, file = some f → f.IsElf → s.freelist = [] ∨ 13 ≤ s.freelist.length ∧
    SizesWithin (s.proc q).shmtop (pageUp (s.proc q).sz) f (s.freelist.drop 13) f.elfhdr.phnum
      f.elfhdr.phoff 0

variable {q : Slot} {s t : Kernel} {argv : List Arg} {tr : List Event}

/-- A failed call gives back at most what there was, and all of it if the image has no page above
the size of the process. -/
theorem exec_freelist (hok : MemOk L s.mem) (hq : (s.proc q).state ≠ .unused) {f : File}
    (helf : f.IsElf) (hlen : 13 ≤ s.freelist.length)
    (h : exec L q (some f) argv s = .ok (t, -1, tr)) :
    ∃ m, t = s.setFreelist m ∧ (∀ r, m.count r ≤ s.freelist.count r) ∧
      (m.Perm s.freelist ↔ SizesWithin (s.proc q).shmtop (pageUp (s.proc q).sz) f
        (s.freelist.drop 13) f.elfhdr.phnum f.elfhdr.phoff 0) := by
  have hp := hok.procs q _ (mem_proc hq)
  have hsz : (s.proc q).sz ≤ usertop := hp.sz_le.trans hp.top_le
  have h160 := pageUp_le hsz
  rw [exec, if_neg ((isElf_iff f).mp helf)] at h
  rcases setupkvm_outcome L s.freelist with ⟨-, hlt⟩ | ⟨m, d, hsetup, hfresh⟩
  · omega
  have hdrop : s.freelist.drop 13 = m := hfresh.drop
  rw [hsetup, ok_bind] at h
  simp only at h
  obtain ⟨⟨im, b⟩, hbuild, h⟩ := bind_eq_ok h
  have himage := hfresh.imageOk hok.free (s.proc q).shmtop
  have hown := (buildImage_memory himage hp.top_le hp.top_aligned hbuild).1
  cases b with
  | true =>
    obtain ⟨u, -, h⟩ := bind_eq_ok h
    cases (Prod.mk.inj (Prod.mk.inj (Except.ok.inj h)).2).1
  | false =>
    obtain ⟨l, hfree, -, hcount⟩ := freevm_freed im.freelist hown.space hsz
    simp only [hfree, ok_bind] at h
    obtain ⟨rfl, -⟩ := Prod.mk.inj (Except.ok.inj h)
    -- the pages of the image that `freevm` leaves alone are missing
    have hlost : ∀ r, (l ++ im.freelist).count r
        + held (Ico (pageUp (s.proc q).sz) 160) im.pgdir.frames r = s.freelist.count r := by
      intro r
      have hall := hown.count r
      have hsplit := held_split (Nat.zero_le (pageUp (s.proc q).sz)) h160 im.pgdir.frames r
      rw [List.count_append, hcount r]
      rw [range_zero, held_empty, ← range_eq_Ico] at hsplit
      omega
    refine ⟨l ++ im.freelist, rfl, fun r ↦ ?_, ?_⟩
    · have := hlost r
      omega
    · rw [hdrop, ← not_iff_not, ← buildImage_beyond himage (hfresh.space hok.free).2 hp.top_le
        hp.top_aligned hbuild, List.perm_iff_count, not_forall]
      constructor
      · rintro ⟨r, hr⟩
        have hpos : 0 < held (Ico (pageUp (s.proc q).sz) 160) im.pgdir.frames r := by
          have := hlost r
          omega
        obtain ⟨v, hv, hframe⟩ := held_pos_iff.mp hpos
        rw [mem_Ico] at hv
        refine ⟨v, hv.1, hv.2, ?_⟩
        obtain ⟨e, he, -⟩ := Option.map_eq_some_iff.mp hframe
        rw [he]
        rfl
      · rintro ⟨v, h1, h2, hv⟩
        obtain ⟨e, he⟩ := Option.isSome_iff_exists.mp hv
        have hpos := held_pos_iff.mpr ⟨v, mem_Ico.mpr ⟨h1, h2⟩,
          show im.pgdir.frames v = some e.pa by rw [PageDir.frames, he]; rfl⟩
        refine ⟨e.pa, fun heq ↦ ?_⟩
        have := hlost e.pa
        omega

/-- Without frames for the address space nothing is given back. -/
theorem exec_starved {f : File} (helf : f.IsElf) (hlen : s.freelist.length < 13)
    (h : exec L q (some f) argv s = .ok (t, -1, tr)) : t = s.setFreelist [] ∧ tr = [] := by
  rw [exec, if_neg ((isElf_iff f).mp helf)] at h
  rcases setupkvm_outcome L s.freelist with ⟨hsetup, -⟩ | ⟨m, d, -, hfresh⟩
  · rw [hsetup, ok_bind] at h
    obtain ⟨rfl, hret⟩ := Prod.mk.inj (Except.ok.inj h)
    exact ⟨rfl, (Prod.mk.inj hret).2.symm⟩
  · have := hfresh.length
    omega

/-- A failed call changes nothing but the free list, which does not gain frames. -/
theorem exec_failed (hok : MemOk L s.mem) (hq : (s.proc q).state ≠ .unused) {file : Option File}
    (h : exec L q file argv s = .ok (t, -1, tr)) :
    ∃ m, t = s.setFreelist m ∧ ∀ r, m.count r ≤ s.freelist.count r := by
  cases file with
  | none =>
    obtain ⟨rfl, -⟩ := Prod.mk.inj (Except.ok.inj h)
    exact ⟨s.freelist, rfl, fun r ↦ le_rfl⟩
  | some f =>
    by_cases helf : f.IsElf
    · by_cases hlen : 13 ≤ s.freelist.length
      · obtain ⟨m, ht, hle, -⟩ := exec_freelist hok hq helf hlen h
        exact ⟨m, ht, hle⟩
      · obtain ⟨rfl, -⟩ := exec_starved helf (not_le.mp hlen) h
        exact ⟨[], rfl, fun r ↦ Nat.zero_le _⟩
    · rw [exec, if_pos (not_not.mp (mt (isElf_iff f).mpr helf))] at h
      obtain ⟨rfl, -⟩ := Prod.mk.inj (Except.ok.inj h)
      exact ⟨s.freelist, rfl, fun r ↦ le_rfl⟩

theorem unchanged_iff_undone (hok : MemOk L s.mem) (hq : (s.proc q).state ≠ .unused)
    {file : Option File} (h : exec L q file argv s = .ok (t, -1, tr)) :
    Unchanged s t ↔ Undone s q file := by
  obtain ⟨m, ht, -⟩ := exec_failed hok hq h
  have hperm : Unchanged s t ↔ t.freelist.Perm s.freelist := by
    subst ht
    exact ⟨fun h ↦ h.freelist, fun h ↦ ⟨rfl, rfl, h⟩⟩
  rw [hperm]
  cases file with
  | none =>
    obtain ⟨rfl, -⟩ := Prod.mk.inj (Except.ok.inj h)
    exact iff_of_true (List.Perm.refl _) fun f hf ↦ by cases hf
  | some f =>
    have hundone : Undone s q (some f) ↔ (f.IsElf → s.freelist = [] ∨ 13 ≤ s.freelist.length ∧ _) :=
      ⟨fun h ↦ h f rfl, fun h g hg ↦ by obtain rfl := Option.some.inj hg; exact h⟩
    rw [hundone]
    by_cases helf : f.IsElf
    · rw [forall_prop_of_true helf]
      by_cases hlen : 13 ≤ s.freelist.length
      · have hne : s.freelist ≠ [] := by
          rintro hnil
          rw [hnil] at hlen
          cases hlen
        obtain ⟨m, rfl, -, hiff⟩ := exec_freelist hok hq helf hlen h
        rw [or_iff_right hne, and_iff_right hlen]
        exact hiff
      · obtain ⟨rfl, -⟩ := exec_starved helf (not_le.mp hlen) h
        rw [or_iff_left (fun h ↦ hlen h.1)]
        change [].Perm s.freelist ↔ _
        rw [List.nil_perm]
    · rw [exec, if_pos (not_not.mp (mt (isElf_iff f).mpr helf))] at h
      obtain ⟨rfl, -⟩ := Prod.mk.inj (Except.ok.inj h)
      exact iff_of_true (List.Perm.refl _) fun hf ↦ absurd hf helf

/-- As long as no frame is on the free list twice, to have the same frames is to have them in
another order. -/
theorem perm_iff_of_failed (hok : MemOk L s.mem) (hq : (s.proc q).state ≠ .unused)
    {file : Option File} (h : exec L q file argv s = .ok (t, -1, tr)) (hnodup : s.freelist.Nodup) :
    t.freelist.Perm s.freelist ↔ ∀ r, r ∈ t.freelist ↔ r ∈ s.freelist := by
  obtain ⟨m, rfl, hle⟩ := exec_failed hok hq h
  refine List.perm_ext_iff_of_nodup (List.nodup_iff_count.mpr fun r ↦ ?_) hnodup
  exact (hle r).trans (List.nodup_iff_count.mp hnodup r)

/-- **What a failed `exec` changes.** In every reachable state, for every file and all arguments: if
the segments are safe, or what is stored outside the image stays below the kernel, the call changes
nothing if and only if what it gives up is given back. -/
theorem failed_exec_unchanged_iff (hs : Reach L s) (hq : s.Ready q) (file : Option File)
    (h : exec L q file argv s = .ok (t, -1, tr))
    (hstores : SafeExec s q file ∨ ∀ e ∈ strays [] tr, e.Low) :
    step L (.exec q file argv) s = some t ∧ (Unchanged s t ↔ Undone s q file) ∧
      (s.freelist.Nodup → (t.freelist.Perm s.freelist ↔ ∀ r, r ∈ t.freelist ↔ r ∈ s.freelist)) := by
  have hlow : ∀ e ∈ strays [] tr, e.Low := by
    rcases hstores with hsafe | hlow
    · rw [strays_eq_nil (hsafe.contained hs.memOk hq.ne_unused h)]
      simp
    · exact hlow
  exact ⟨(if_pos hq).trans (execStray_of_low hs.memOk hq.ne_unused h hlow),
    unchanged_iff_undone hs.memOk hq.ne_unused h,
    fun hnodup ↦ perm_iff_of_failed hs.memOk hq.ne_unused h hnodup⟩

/-! ## A truncated executable -/

/-- Where `exec` goes on to the stack, all program headers could be read. -/
theorem loadSegments_reads {top : ℕ} {f : File} {n off : ℕ} {im im' : Image} (hoff : off < 2 ^ 32)
    (hload : loadSegments L top f n off im = .ok (im', true)) {i : ℕ} (hi : i < n) :
    readi f.size ((off + i * proghdrSize) % 2 ^ 32) proghdrSize = some proghdrSize := by
  induction n generalizing off im i with
  | zero => cases hi
  | succ n ih =>
    rw [loadSegments] at hload
    split at hload
    · cases (Prod.mk.inj (Except.ok.inj hload)).2
    rename_i hread
    rw [not_not] at hread
    have hrest : ∃ im₁, loadSegments L top f n ((off + proghdrSize) % 2 ^ 32) im₁ =
        .ok (im', true) := by
      split at hload
      · exact ⟨im, hload⟩
      · obtain ⟨⟨im₁, b₁⟩, -, hload⟩ := bind_eq_ok hload
        cases b₁ with
        | false => cases (Prod.mk.inj (Except.ok.inj hload)).2
        | true => exact ⟨im₁, hload⟩
    obtain ⟨im₁, hload₁⟩ := hrest
    cases i with
    | zero => rwa [Nat.zero_mul, Nat.add_zero, Nat.mod_eq_of_lt hoff]
    | succ i =>
      have hnext := ih (Nat.mod_lt _ (by decide)) hload₁ (Nat.lt_of_succ_lt_succ hi)
      have hoff' : off + proghdrSize + i * proghdrSize = off + (i + 1) * proghdrSize := by
        rw [Nat.succ_mul]
        omega
      rwa [Nat.mod_add_mod, hoff'] at hnext

/-- An executable of 84 bytes: of its two program headers the file holds only the first, a segment
of two empty pages. -/
def truncated : File where
  bytes := [0x7F, 0x45, 0x4C, 0x46] ++ List.replicate 24 0 ++ [52, 0, 0, 0] ++ List.replicate 12 0
    ++ [2, 0] ++ List.replicate 6 0 ++ [1, 0, 0, 0] ++ List.replicate 16 0 ++ [0, 0x20, 0, 0]
    ++ List.replicate 8 0
  size_le := by decide

theorem truncated_header : truncated.proghdr 52 = ⟨1, 0, 0, 0, 0x2000⟩ := rfl

theorem truncated_phnum : truncated.elfhdr.phnum = 2 := by decide

theorem truncated_phoff : truncated.elfhdr.phoff = 52 := by decide

theorem truncated_safe (s : Kernel) (q : Slot) : SafeExec s q (some truncated) := by
  rintro f hf - -
  obtain rfl := Option.some.inj hf
  rw [truncated_phnum, truncated_phoff, HeadersSafe, truncated_header]
  intro _ _
  refine ⟨⟨by decide, fun j hj ↦ absurd hj (Nat.not_lt_zero _)⟩, fun _ hread ↦ ?_⟩
  exact absurd hread (by decide)

/-- `exec` refuses it, in every state of a process. -/
theorem exec_truncated (argv : List Arg) (hok : MemOk L s.mem) (hq : (s.proc q).state ≠ .unused) :
    ∃ t tr, exec L q (some truncated) argv s = .ok (t, -1, tr) := by
  have hsafe := (exec_safe_iff_headers hok hq truncated argv).mpr (truncated_safe s q truncated rfl)
  obtain ⟨t, x, tr, h, rfl | rfl, -⟩ := hsafe
  -- the second header cannot be read
  · exfalso
    rw [exec, if_neg ((isElf_iff truncated).mp ⟨by decide, by decide⟩)] at h
    obtain ⟨⟨m, o⟩, -, h⟩ := bind_eq_ok h
    cases o with
    | none => cases (Prod.mk.inj (Prod.mk.inj (Except.ok.inj h)).2).1
    | some d =>
      obtain ⟨⟨im, b⟩, hbuild, h⟩ := bind_eq_ok h
      cases b with
      | false =>
        obtain ⟨m', -, h⟩ := bind_eq_ok h
        cases (Prod.mk.inj (Prod.mk.inj (Except.ok.inj h)).2).1
      | true =>
        rw [buildImage] at hbuild
        obtain ⟨⟨im₁, b₁⟩, hload, hbuild⟩ := bind_eq_ok hbuild
        cases b₁ with
        | false => cases (Prod.mk.inj (Except.ok.inj hbuild)).2
        | true =>
          have hread := loadSegments_reads (by decide) hload (i := 1) (by decide)
          exact absurd hread (by decide)
  · exact ⟨t, tr, h⟩

/-- A process of one page tries it, and the second page of the image is lost. -/
theorem exists_truncated : ∃ s t tr, Unreaped kernelImage s ∧ s.Ready initproc ∧ s.freelist.Nodup ∧
    exec kernelImage initproc (some truncated) [] s = .ok (t, -1, tr) ∧
    ¬t.freelist.Perm s.freelist := by
  obtain ⟨s, hs, hready, hlen, hsz, htop, -⟩ :=
    exists_running_unreaped (L := kernelImage) (by rw [length_frames_kernelImage]; decide)
  rw [length_frames_kernelImage] at hlen
  have hok := hs.reach.memOk
  obtain ⟨t, tr, h⟩ := exec_truncated [] hok hready.ne_unused
  refine ⟨s, t, tr, hs, hready, hs.sound.nodup, h, fun hperm ↦ ?_⟩
  obtain ⟨m, rfl, -, hiff⟩ := exec_freelist hok hready.ne_unused (f := truncated)
    ⟨by decide, by decide⟩ (by omega) h
  have hsizes := hiff.mp hperm
  have hlen' : (s.freelist.drop 13).length = 3782 := by
    rw [List.length_drop]
    omega
  rw [truncated_phnum, truncated_phoff, htop, hsz, SizesWithin, truncated_header] at hsizes
  generalize s.freelist.drop 13 = frames at hsizes hlen'
  have htaken : (⟨1, 0, 0, 0, 0x2000⟩ : Proghdr).Taken usertop frames 0 := by
    refine ⟨by decide, by decide, by decide, ?_⟩
    have hneed : pageUp (max 0 (⟨1, 0, 0, 0, 0x2000⟩ : Proghdr).newsz) = 2 := by decide
    omega
  exact absurd (hsizes (by decide) htaken).1 (by decide)

/-- A frame that was free is free no longer. -/
theorem not_failed_exec_unchanged : ∃ s t tr, Reachable (step kernelImage) (Booted kernelImage) s ∧
    s.Ready initproc ∧ exec kernelImage initproc (some truncated) [] s = .ok (t, -1, tr) ∧
    step kernelImage (.exec initproc (some truncated) []) s = some t ∧
    ∃ r ∈ s.freelist, r ∉ t.freelist := by
  obtain ⟨s, t, tr, hs, hready, hnodup, h, hperm⟩ := exists_truncated
  have hok := hs.reach.memOk
  have hcont := (truncated_safe s initproc).contained hok hready.ne_unused h
  refine ⟨s, t, tr, hs.sound.reachable, hready, h,
    (if_pos hready).trans (execStray_of_contained h hcont), ?_⟩
  rw [perm_iff_of_failed hok hready.ne_unused h hnodup] at hperm
  obtain ⟨m, rfl, hle⟩ := exec_failed hok hready.ne_unused h
  by_contra hall
  refine hperm fun r ↦ ⟨fun hr ↦ ?_, fun hr ↦ ?_⟩
  · exact List.count_pos_iff.mp ((List.count_pos_iff.mpr hr).trans_le (hle r))
  · by_contra hnot
    exact hall ⟨r, hr, hnot⟩

/-- That call. -/
theorem failed_exec_unchanged_truncated : ∃ s t tr, Reach kernelImage s ∧
    exec kernelImage initproc (some truncated) [] s = .ok (t, -1, tr) ∧
    ¬Undone s initproc (some truncated) := by
  obtain ⟨s, t, tr, hs, hready, -, h, hperm⟩ := exists_truncated
  refine ⟨s, t, tr, hs.reach, h, fun hundone ↦ hperm ?_⟩
  have hiff := (failed_exec_unchanged_iff hs.reach hready _ h (.inl (truncated_safe s initproc))).2.1
  exact (hiff.mpr hundone).freelist

end CS537.Shm
