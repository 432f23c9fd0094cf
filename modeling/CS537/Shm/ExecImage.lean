import CS537.Shm.ArgChecks
import CS537.Shm.Loaded

/-!
# The address space after `exec`

When `exec` returns 0, the new address space holds the bytes that `exec` has stored in its pages:
leaving the old regions and freeing the old address space writes to other frames. Whether this is
the image that was asked for depends on how much `exec` has pushed on the stack.
-/

open Finset Function Interference

namespace CS537.Shm

variable {L : Link}

/-! ## Leaving the old image -/

/-- The frames of the regions that the process `q` has attached. -/
def Kernel.regionFrames (s : Kernel) (q : Slot) : Set ℕ :=
  {f | ∃ k i, (s.proc q).shmemVaddr k ≠ 0 ∧ i < s.shmemPages k ∧ s.shmemPaddr k i = f}

theorem freeRegionBytes_within (k : Key) (n i : ℕ) (s : Kernel) :
    Within {f | ∃ j, i ≤ j ∧ j < i + n ∧ s.shmemPaddr k j = f} (freeRegionBytes L k n i s) := by
  induction n generalizing i s with
  | zero => exact .id _
  | succ n ih =>
    intro mem y hy
    rw [freeRegionBytes]
    cases hfree : kfree L (s.shmemPaddr k i) s.freelist with
    | error e => rfl
    | ok m =>
      have hhead := Within.kfreeBytes (f := s.shmemPaddr k i)
        (F := {f | ∃ j, i ≤ j ∧ j < i + (n + 1) ∧ s.shmemPaddr k j = f})
        ⟨i, le_rfl, by omega, rfl⟩ s.freelist
      refine hhead.comp ((ih (i + 1) ((s.setFreelist m).setPaddr k i 0)).mono ?_) mem y hy
      -- the entries still to come have not been cleared
      rintro f ⟨j, h1, h2, rfl⟩
      refine ⟨j, by omega, by omega, ?_⟩
      simp only [Kernel.setPaddr, Kernel.setFreelist, update_self]
      rw [update_of_ne (by omega)]

theorem freeRegion_other {k : Key} {n i : ℕ} {s t : Kernel} (h : freeRegion L k n i s = .ok t) :
    t.proc = s.proc ∧ t.shmemPages = s.shmemPages ∧
      ∀ j, j ≠ k → t.shmemPaddr j = s.shmemPaddr j := by
  induction n generalizing i s with
  | zero =>
    obtain rfl := Except.ok.inj h
    exact ⟨rfl, rfl, fun _ _ ↦ rfl⟩
  | succ n ih =>
    rw [freeRegion] at h
    obtain ⟨m, -, h⟩ := bind_eq_ok h
    obtain ⟨hproc, hpages, hpaddr⟩ := ih h
    exact ⟨hproc, hpages, fun j hj ↦ (hpaddr j hj).trans (update_of_ne hj _ _)⟩

theorem shmDecreaseCount_other {k : Key} {s t : Kernel} (h : shmDecreaseCount L k s = .ok t) :
    t.proc = s.proc ∧ t.shmemPages = s.shmemPages ∧
      ∀ j, j ≠ k → t.shmemPaddr j = s.shmemPaddr j := by
  rw [shmDecreaseCount] at h
  split at h
  · obtain ⟨hproc, hpages, hpaddr⟩ := freeRegion_other h
    exact ⟨hproc, hpages, hpaddr⟩
  · obtain rfl := Except.ok.inj h
    exact ⟨rfl, rfl, fun _ _ ↦ rfl⟩

/-- One round: no frames come to the attached regions, and the address space stays. -/
theorem leaveOne_other {q : Slot} {k : Key} {s t : Kernel} (h : leaveOne L q s k = .ok t) :
    t.regionFrames q ⊆ s.regionFrames q ∧ (t.proc q).pgdir = (s.proc q).pgdir := by
  obtain ⟨u, ⟨hproc, hpages, hpaddr⟩, rfl⟩ : ∃ u : Kernel, (u.proc = s.proc ∧
      u.shmemPages = s.shmemPages ∧ ∀ j, j ≠ k → u.shmemPaddr j = s.shmemPaddr j) ∧
      u.setProc q { u.proc q with shmemVaddr := update (u.proc q).shmemVaddr k 0 } = t := by
    rw [leaveOne] at h
    split at h
    · obtain ⟨u, hu, h⟩ := bind_eq_ok h
      exact ⟨u, shmDecreaseCount_other hu, Except.ok.inj h⟩
    · exact ⟨s, ⟨rfl, rfl, fun _ _ ↦ rfl⟩, Except.ok.inj h⟩
  rw [Kernel.setProc_self]
  refine ⟨?_, by rw [hproc]⟩
  rintro f ⟨j, i, hj, hi, rfl⟩
  rw [Kernel.setProc_self] at hj
  change update (u.proc q).shmemVaddr k 0 j ≠ 0 at hj
  -- the region `k` is no longer attached
  by_cases hjk : j = k
  · rw [hjk] at hj
    exact absurd (update_self ..) hj
  · refine ⟨j, i, ?_, ?_, ?_⟩
    · rw [← hproc]
      rwa [update_of_ne hjk] at hj
    · rw [← hpages]
      exact hi
    · rw [← hpaddr j hjk]
      rfl

theorem leaveOneBytes_within (q : Slot) (s : Kernel) (k : Key) :
    Within (s.regionFrames q) (leaveOneBytes L q s k) := by
  intro mem y hy
  rw [leaveOneBytes]
  split
  · rename_i hk
    rw [shmDecreaseCountBytes]
    split
    · refine (freeRegionBytes_within k (s.shmemPages k) 0 _).mono ?_ mem y hy
      rintro f ⟨i, -, hi, rfl⟩
      exact ⟨k, i, hk, by omega, rfl⟩
    · rfl
  · rfl

theorem leaveKeysBytes_within (q : Slot) (ks : List Key) (s : Kernel) :
    Within (s.regionFrames q) (leaveKeysBytes L q ks s) := by
  induction ks generalizing s with
  | nil => exact .id _
  | cons k ks ih =>
    intro mem y hy
    rw [leaveKeysBytes]
    cases hone : leaveOne L q s k with
    | error e => exact leaveOneBytes_within q s k mem y hy
    | ok t =>
      exact (leaveOneBytes_within q s k).comp ((ih t).mono (leaveOne_other hone).1) mem y hy

theorem leaveKeys_pgdir {q : Slot} {ks : List Key} {s t : Kernel}
    (h : ks.foldlM (leaveOne L q) s = .ok t) : (t.proc q).pgdir = (s.proc q).pgdir := by
  induction ks generalizing s with
  | nil =>
    obtain rfl := Except.ok.inj h
    rfl
  | cons k ks ih =>
    obtain ⟨u, hu, h⟩ := bind_eq_ok h
    exact (ih h).trans (leaveOne_other hu).2

/-- The end of `exec` writes to the frames of the old image and of its regions only. -/
theorem commitBytes_within {q : Slot} {im : Image} {s : Kernel} (hspace : Space L (s.proc q).pgdir)
    (hsz : im.sz ≤ usertop) :
    Within (s.regionFrames q ∪ (s.proc q).pgdir.below (usertop / pgsize))
      (commitBytes L q im s) := by
  let s₁ := (s.setFreelist im.freelist).setProc q { s.proc q with shmtop := usertop }
  have hself : s₁.proc q = { s.proc q with shmtop := usertop } := Kernel.setProc_self ..
  have hframes : s₁.regionFrames q ⊆ s.regionFrames q := by
    rintro f ⟨k, i, hk, hi, rfl⟩
    rw [hself] at hk
    exact ⟨k, i, hk, hi, rfl⟩
  have hleave : Within (s.regionFrames q ∪ (s.proc q).pgdir.below (usertop / pgsize))
      (leaveKeysBytes L q keys s₁) :=
    (leaveKeysBytes_within q keys s₁).mono fun f hf ↦ .inl (hframes hf)
  intro mem y hy
  rw [commitBytes]
  simp only
  cases hkeys : keys.foldlM (leaveOne L q) s₁ with
  | error e => exact hleave mem y hy
  | ok t =>
    have hpgdir : (t.proc q).pgdir = (s.proc q).pgdir := by
      rw [leaveKeys_pgdir hkeys, hself]
    have hfree := freevmBytes_within hspace hsz t.freelist
    simp only [hpgdir]
    refine hleave.comp (hfree.mono ?_) mem y hy
    rintro f (rfl | hf | ⟨v, hv, hvf⟩)
    · exact .inr (.inl rfl)
    · exact .inr (.inr (.inl hf))
    · exact .inr (.inr (.inr ⟨v, lt_of_lt_of_le hv (pageUp_le hsz), hvf⟩))

/-! ## `exec` as a whole -/

variable {q : Slot} {f : File} {s t : Kernel} {tr : List Event}

/-- The way of an `exec` that returns 0. -/
theorem exec_built {argv : List Arg} (hok : MemOk L s.mem) (hq : (s.proc q).state ≠ .unused)
    (h : exec L q (some f) argv s = .ok (t, 0, tr)) :
    ∃ m₁ d im, f.IsElf ∧ setupkvm L s.freelist = .ok (m₁, some d) ∧ Fresh L s.freelist m₁ d ∧
      ImageOk L (s.proc q).shmtop s.freelist m₁ ⟨m₁, d, 0, []⟩ ∧
      buildImage L (s.proc q).shmtop f argv m₁ d = .ok (im, true) ∧
      ImageOk L (s.proc q).shmtop s.freelist m₁ im ∧
      (t.proc q).pgdir = im.pgdir ∧ (t.proc q).sz = im.sz := by
  have hp := hok.procs q _ (mem_proc hq)
  have htop : (s.proc q).shmtop ≤ usertop := hp.top_le
  -- the paths to the label `bad` return -1
  have hbad : ∀ {u : Kernel} {l : List Event},
      (pure (u, (-1 : ℤ), l) : Except String (Kernel × ℤ × List Event)) ≠ .ok (t, 0, tr) := by
    intro u l hx
    have hret := (Prod.mk.inj (Prod.mk.inj (Except.ok.inj hx)).2).1
    omega
  rw [exec] at h
  split at h
  · exact absurd h hbad
  rename_i helf
  rcases setupkvm_outcome L s.freelist with ⟨hsetup, -⟩ | ⟨m₁, d, hsetup, hfresh⟩
  · rw [hsetup] at h
    exact absurd h hbad
  rw [hsetup, ok_bind] at h
  obtain ⟨⟨im, b⟩, hbuild, h⟩ := bind_eq_ok h
  have himage := hfresh.imageOk hok.free (s.proc q).shmtop
  obtain ⟨-, hbuilt⟩ := buildImage_memory himage htop hp.top_aligned hbuild
  cases b with
  | false =>
    obtain ⟨m, -, h⟩ := bind_eq_ok h
    exact absurd h hbad
  | true =>
    obtain ⟨him, -⟩ := hbuilt rfl
    obtain ⟨l, l', u, hu, -, -, heq⟩ := commit_ok im hok hq (him.sz_le.trans htop)
    simp only [hu, ok_bind] at h
    obtain ⟨rfl, -⟩ := Prod.mk.inj (Except.ok.inj h)
    have huq : u.proc q = { s.proc q with
        pgdir := im.pgdir
        sz := im.sz
        shmemVaddr := fun _ ↦ 0
        shmtop := usertop } := by
      rw [heq]
      exact update_self ..
    exact ⟨m₁, d, im, (isElf_iff f).mpr helf, hsetup, hfresh, himage, hbuild, him, by rw [huq],
      by rw [huq]⟩

/-- The stack ends at the size of the new image. -/
theorem exec_esp {argv : List ArgStr} (hok : MemOk L s.mem) (hq : (s.proc q).state ≠ .unused)
    (h : exec L q (some f) (argv.map ArgStr.len) s = .ok (t, 0, tr)) :
    execEsp argv (t.proc q).sz + stackBytes argv = (t.proc q).sz ∧
      argSp argv (t.proc q).sz + (argv.map ArgStr.room).sum = (t.proc q).sz := by
  have hp := hok.procs q _ (mem_proc hq)
  obtain ⟨m₁, d, im, -, -, -, himage, hbuild, him, -, hsz⟩ := exec_built hok hq h
  obtain ⟨im₁, -, -, -, -, hpage, hpush⟩ :=
    buildImage_pushed himage hp.top_le hp.top_aligned hbuild
  obtain ⟨hesp, hsp, -⟩ := pushAll_esp him.own.space (him.sz_le.trans hp.top_le)
    (by simp only [pgsize] at *; omega) hpush
  rw [hsz]
  exact ⟨hesp, hsp⟩

/-- Where no frame has two places, the pages of the new image are neither frames of the regions nor
of the old image. -/
theorem FreeOf.notMem_regionFrames (hok : MemOk L s.mem) (huses : ∀ f, s.mem.uses f ≤ 1)
    (hq : (s.proc q).state ≠ .unused) {r : ℕ} (hr : r ∈ s.freelist) : r ∉ s.regionFrames q := by
  rintro ⟨k, i, hk, hi, rfl⟩
  have hcount := hok.count_pos (mem_proc hq) hk
  have hle : s.shmemPages k ≤ shmemMaxPages := hok.pages_le k
  exact (hok.framesOk huses).unrecorded k hcount i (lt_of_lt_of_le hi hle) hr

theorem exec_holds {argv : List ArgStr} (hok : MemOk L s.mem) (huses : ∀ f, s.mem.uses f ≤ 1)
    (hq : (s.proc q).state ≠ .unused) (hlive : (s.proc q).state ≠ .zombie)
    (hfit : ∀ ph ∈ f.segments, ph.va + ph.memsz < 2 ^ 32)
    (h : exec L q (some f) (argv.map ArgStr.len) s = .ok (t, 0, tr)) (mem : Phys) :
    ∃ l, Backed L (t.proc q).pgdir l ∧ l.length * pgsize = (t.proc q).sz ∧
      Stored l (execBytes L q f argv s mem) (stackContents argv (t.proc q).sz f.contents) := by
  have hp := hok.procs q _ (mem_proc hq)
  have htop : (s.proc q).shmtop ≤ usertop := hp.top_le
  have hspace : Space L (s.proc q).pgdir := hp.space
  obtain ⟨m₁, d, im, helf, hsetup, hfresh, himage, hbuild, him, hpgdir, hsz⟩ := exec_built hok hq h
  obtain ⟨im₁, -, -, -, -, hpage, -⟩ := buildImage_pushed himage htop hp.top_aligned hbuild
  have hfree := FreeOf.of_uses hok huses hq hlive
  have hvalid := (hfresh.space hok.free).2
  have hdrop : s.freelist.drop 13 = m₁ := hfresh.drop
  have hsub : ∀ r ∈ m₁, r ∈ s.freelist := fun r hr ↦ List.mem_of_mem_drop (hdrop ▸ hr)
  have hsep : Separate m₁ :=
    ⟨hdrop ▸ hfree.nodup.sublist (List.drop_sublist 13 _), fun r hr ↦ (hvalid r hr).1⟩
  obtain ⟨hbacked, hlen⟩ := him.backed htop hsep
  have hbuilt := ImageHolds.buildImage himage hvalid htop hp.top_aligned hsep hfit hbuild
    (setupkvmBytes L s.freelist mem)
  refine ⟨m₁.take (pageUp im.sz), by rwa [hpgdir], ?_, ?_⟩
  · rw [hlen, hsz]
    simp only [pageUp, pgsize] at *
    omega
  · have hbytes : execBytes L q f argv s mem = commitBytes L q im s
        (buildImageBytes L (s.proc q).shmtop f argv m₁ d (setupkvmBytes L s.freelist mem)) := by
      rw [execBytes, if_neg ((isElf_iff f).mp helf)]
      simp only [hsetup, hbuild]
    rw [hbytes, hsz]
    -- what the end of `exec` writes to was not free
    refine hbuilt.congr fun r hr y hy ↦ ?_
    have hrfree := hsub r (List.mem_of_mem_take hr)
    refine commitBytes_within hspace (him.sz_le.trans htop) _ y fun r' hr' hy' ↦ ?_
    have halign' : r' % pgsize = 0 := by
      rcases hr' with ⟨k, i, hk, hi, rfl⟩ | rfl | ⟨x, hx⟩ | ⟨v, hv, hvf⟩
      · exact ((hok.region k (hok.count_pos (mem_proc hq) hk)).2 i hi).1
      · exact hspace.valid_frame.1
      · exact (hspace.valid_tab x r' hx).1
      · obtain ⟨p, hpte, rfl⟩ := Option.map_eq_some_iff.mp hvf
        exact (hspace.user v hv p hpte).1.1
    obtain rfl := hy'.eq hy halign' (hvalid r (List.mem_of_mem_take hr)).1
    rcases hr' with hregion | hold
    · exact FreeOf.notMem_regionFrames hok huses hq hrfree hregion
    · exact hfree.apart r' hrfree hold

/-! ## Reading the segments -/

theorem foldl_load_other {l : List Proghdr} {V : ℕ → BitVec 8} {x : ℕ}
    (h : ∀ ph ∈ l, ¬(ph.va ≤ x ∧ x < ph.va + ph.filesz)) : l.foldl f.load V x = V x := by
  induction l generalizing V with
  | nil => rfl
  | cons ph l ih =>
    rw [List.foldl_cons, ih fun ph' hph' ↦ h ph' (List.mem_cons_of_mem ph hph'), File.load,
      overlay.of_not]
    rw [File.length_slice]
    exact h ph List.mem_cons_self

/-- In a list of segments in order, each keeps its bytes. -/
theorem foldl_load_segment {l : List Proghdr}
    (horder : l.Pairwise fun ph ph' ↦ ph.va + ph.memsz ≤ ph'.va)
    (hsizes : ∀ ph ∈ l, ph.filesz ≤ ph.memsz) {ph : Proghdr} (hph : ph ∈ l) (V : ℕ → BitVec 8)
    {i : ℕ} (hi : i < ph.memsz) :
    l.foldl f.load V (ph.va + i)
      = if i < ph.filesz then f.data (ph.offset + i) else V (ph.va + i) := by
  induction l generalizing V with
  | nil => cases hph
  | cons ph₀ l ih =>
    obtain ⟨hhead, hrest⟩ := List.pairwise_cons.mp horder
    rw [List.foldl_cons]
    rcases List.mem_cons.mp hph with rfl | hmem
    · rw [foldl_load_other fun ph' hph' ↦ by have := hhead ph' hph'; omega, File.load]
      by_cases hfile : i < ph.filesz
      · rw [if_pos hfile, overlay.of_getElem? (f.getElem?_slice ph.offset hfile)]
      · rw [if_neg hfile, overlay.of_not]
        rw [File.length_slice]
        omega
    · rw [ih hrest (fun ph' h' ↦ hsizes ph' (List.mem_cons_of_mem _ h')) hmem]
      -- the first segment ends before this one
      have hbefore := hhead ph hmem
      have hsize := hsizes ph₀ List.mem_cons_self
      rw [File.load, overlay.of_le]
      rw [File.length_slice]
      omega

/-- What the segments of an executable satisfy when all of them have been loaded. -/
theorem loadSegments_segments {top : ℕ} {m₀ m₁ : Freelist} {im im' : Image} {n off : ℕ}
    (h : ImageOk L top m₀ m₁ im) (hvalid : ∀ r ∈ m₁, L.Valid r) (htop : top ≤ usertop)
    (hload : loadSegments L top f n off im = .ok (im', true)) :
    im.sz ≤ im'.sz ∧ ∀ ph ∈ f.segmentsFrom n off,
      ph.filesz ≤ ph.memsz ∧ (ph.va + ph.memsz) % 2 ^ 32 ≤ im'.sz ∧ ph.Complete f := by
  induction n generalizing off im with
  | zero =>
    obtain ⟨rfl, -⟩ := Prod.mk.inj (Except.ok.inj hload)
    exact ⟨le_rfl, fun ph hph ↦ (nomatch hph)⟩
  | succ n ih =>
    rw [loadSegments] at hload
    rw [File.segmentsFrom]
    split at hload
    · cases (Prod.mk.inj (Except.ok.inj hload)).2
    split at hload
    · rename_i htype
      rw [if_pos htype]
      exact ih h hload
    · rename_i htype
      rw [if_neg htype]
      obtain ⟨⟨im₁, b⟩, hseg, hload⟩ := bind_eq_ok hload
      cases b with
      | false => cases (Prod.mk.inj (Except.ok.inj hload)).2
      | true =>
        obtain ⟨hb, hgrown, -⟩ := loadSegment_ret h hvalid htop (f.proghdr_offset_lt off) hseg
        obtain ⟨htaken, hcomplete⟩ := hb.mp rfl
        obtain ⟨hok₁, hsz₁⟩ := hgrown htaken
        obtain ⟨hle, hrest⟩ := ih hok₁ hload
        rw [hsz₁] at hle
        refine ⟨(le_max_left _ _).trans hle, fun ph hph ↦ ?_⟩
        rcases List.mem_cons.mp hph with rfl | hmem
        · exact ⟨htaken.1, (le_max_right _ _).trans hle, hcomplete⟩
        · exact hrest ph hmem

/-! ## Reading the stack -/

theorem argContents_other {argv : List ArgStr} {sp x : ℕ} (V : ℕ → BitVec 8) (hsp : sp ≤ usertop)
    (halign : sp % 4 = 0) (hfit : (argv.map ArgStr.room).sum ≤ sp)
    (hx : x + (argv.map ArgStr.room).sum < sp ∨ sp ≤ x) : argContents argv sp V x = V x := by
  induction argv generalizing sp V with
  | nil => rfl
  | cons a argv ih =>
    rw [List.map_cons, List.sum_cons] at hfit hx
    have hlt := a.lt_room
    have hroom := pushSp_eq (a := a) hsp halign (by omega)
    have hfour := a.room_mod
    rw [argContents_cons, ih _ (by omega) (by omega) (by omega) (by omega), overlay.of_not]
    rw [List.length_append, List.length_singleton]
    omega

/-- Each string lies where the pointer to it says. -/
theorem argContents_string {argv : List ArgStr} {sp i x : ℕ} {a : ArgStr} (V : ℕ → BitVec 8)
    (hsp : sp ≤ usertop) (halign : sp % 4 = 0) (hfit : (argv.map ArgStr.room).sum ≤ sp)
    (ha : argv[i]? = some a) (hx : (argPtrs argv sp)[i]? = some x) :
    sp ≤ x + (argv.map ArgStr.room).sum ∧ x + a.bytes.length + 1 ≤ sp ∧
      ∀ j b, (a.bytes ++ [0])[j]? = some b → argContents argv sp V (x + j) = b := by
  induction argv generalizing sp V i with
  | nil => cases ha
  | cons a₀ argv ih =>
    rw [List.map_cons, List.sum_cons] at hfit ⊢
    have hlt := a₀.lt_room
    have hroom := pushSp_eq (a := a₀) hsp halign (by omega)
    have hfour := a₀.room_mod
    rw [argPtrs.eq_def] at hx
    rw [argContents_cons]
    cases i with
    | zero =>
      obtain rfl := Option.some.inj ha
      obtain rfl := Option.some.inj hx
      refine ⟨by omega, by omega, fun j b hb ↦ ?_⟩
      have hj : j < a₀.bytes.length + 1 := by
        have := (List.getElem?_eq_some_iff.mp hb).1
        rwa [List.length_append, List.length_singleton] at this
      -- the strings pushed later lie below
      rw [argContents_other _ (by omega) (by omega) (by omega) (.inr (Nat.le_add_right _ _)),
        overlay.of_getElem? hb]
    | succ i =>
      obtain ⟨h1, h2, h3⟩ := ih _ (by omega) (by omega) (by omega) ha hx
      exact ⟨by omega, by omega, h3⟩

/-- The bytes of a word, put together again. -/
theorem wordBytes_append (w : BitVec 32) :
    w.extractLsb' 24 8 ++ w.extractLsb' 16 8 ++ w.extractLsb' 8 8 ++ w.extractLsb' 0 8 = w := by
  rw [BitVec.extractLsb'_append_extractLsb'_eq_extractLsb' (by rfl),
    BitVec.extractLsb'_append_extractLsb'_eq_extractLsb' (by rfl),
    BitVec.extractLsb'_append_extractLsb'_eq_extractLsb' (by rfl)]
  exact BitVec.extractLsb'_eq_self

theorem getElem?_flatMap_wordBytes {l : List (BitVec 32)} {w : BitVec 32} {i j : ℕ}
    (hi : l[i]? = some w) (hj : j < 4) :
    (l.flatMap wordBytes)[4 * i + j]? = (wordBytes w)[j]? := by
  induction l generalizing i with
  | nil => cases hi
  | cons w₀ l ih =>
    have hlen : (wordBytes w₀).length = 4 := rfl
    rw [List.flatMap_cons]
    cases i with
    | zero =>
      obtain rfl := Option.some.inj hi
      rw [List.getElem?_append_left (by omega), Nat.mul_zero, Nat.zero_add]
    | succ i =>
      rw [List.getElem?_append_right (by omega), hlen, ← ih hi]
      congr 1
      omega

theorem ustack_zero (argv : List ArgStr) (sz : ℕ) : (ustack argv sz)[0]? = some 0xFFFFFFFF#32 := by
  rw [ustack, List.getElem?_cons_zero]
theorem ustack_one (argv : List ArgStr) (sz : ℕ) :
    (ustack argv sz)[1]? = some (BitVec.ofNat 32 argv.length) := by
  rw [ustack, List.getElem?_cons_succ, List.getElem?_cons_zero]
theorem ustack_two (argv : List ArgStr) (sz : ℕ) : (ustack argv sz)[2]?
    = some (BitVec.ofNat 32 (sub32 (argSp argv sz) ((argv.length + 1) * 4))) := by
  rw [ustack, List.getElem?_cons_succ, List.getElem?_cons_succ, List.getElem?_cons_zero]

/-- The rest of `ustack`. -/
theorem ustack_add (argv : List ArgStr) (sz i : ℕ) : (ustack argv sz)[3 + i]?
    = ((argPtrs argv sz).map (BitVec.ofNat 32) ++ [0#32])[i]? := by
  rw [ustack, Nat.add_comm 3 i, List.getElem?_cons_succ, List.getElem?_cons_succ,
    List.getElem?_cons_succ]

theorem stackContents_word {argv : List ArgStr} {sz i j : ℕ} {w : BitVec 32} {b : BitVec 8}
    (V : ℕ → BitVec 8) (hi : (ustack argv sz)[i]? = some w) (hj : (wordBytes w)[j]? = some b) :
    stackContents argv sz V (execEsp argv sz + 4 * i + j) = b := by
  have hlt : j < 4 := (List.getElem?_eq_some_iff.mp hj).1
  rw [stackContents, Nat.add_assoc]
  exact overlay.of_getElem? ((getElem?_flatMap_wordBytes hi hlt).trans hj)

section Load

variable {p : Proc} {l : List ℕ} {mem : Phys} {V : ℕ → BitVec 8}

theorem Backed.load (hd : Backed L p.pgdir l) (hmem : Stored l mem V) {x : ℕ}
    (hx : x < l.length * pgsize) : p.load mem x = some (V x) := by
  have hlen := hd.length
  have hv : x / pgsize < l.length := by
    simp only [pgsize] at *
    omega
  have hx' : x / pgsize * pgsize + x % pgsize = x := Nat.div_add_mod' x pgsize
  have hframe : p.pgdir.frames (x / pgsize) = some (l.get ⟨x / pgsize, hv⟩) := by
    rw [PageDir.frames, hd.pte _ (by omega), List.getElem?_eq_getElem hv]
    rfl
  rw [Proc.load, PageDir.translate, hframe]
  have hpage := hmem.page (x / pgsize) _ _ (List.getElem?_eq_getElem hv)
    (Nat.mod_lt x (show 0 < pgsize by decide))
  rw [hx'] at hpage
  exact congrArg some hpage

theorem Backed.loadWord (hd : Backed L p.pgdir l) (hmem : Stored l mem V) {x : ℕ} {w : BitVec 32}
    (hx : x + 4 ≤ l.length * pgsize) (hw : ∀ j b, (wordBytes w)[j]? = some b → V (x + j) = b) :
    p.loadWord mem x = some w := by
  have h0 := hd.load hmem (x := x) (by omega)
  have h1 := hd.load hmem (x := x + 1) (by omega)
  have h2 := hd.load hmem (x := x + 2) (by omega)
  have h3 := hd.load hmem (x := x + 3) (by omega)
  rw [show V x = _ from hw 0 _ rfl] at h0
  rw [hw 1 _ rfl] at h1
  rw [hw 2 _ rfl] at h2
  rw [hw 3 _ rfl] at h3
  rw [Proc.loadWord, h0, h1, h2, h3]
  exact congrArg some (wordBytes_append w)

end Load

/-! ## The image that was asked for -/

/-- The segments lie at page boundaries, in order, without overlap, and end below `2 ^ 32`. -/
structure File.WellFormed (f : File) : Prop where
  aligned : ∀ ph ∈ f.segments, ph.va % pgsize = 0
  fits : ∀ ph ∈ f.segments, ph.va + ph.memsz < 2 ^ 32
  inOrder : f.segments.Pairwise fun ph ph' ↦ ph.va + ph.memsz ≤ ph'.va

/-- `n` bytes from `a` on lie in the stack page. -/
def Proc.InStack (p : Proc) (a n : ℕ) : Prop := p.sz - pgsize ≤ a ∧ a + n ≤ p.sz

/-- A copy of the string `a` lies at `x`, with its NUL. -/
def Proc.HoldsString (p : Proc) (mem : Phys) (x : ℕ) (a : ArgStr) : Prop :=
  ∀ i b, (a.bytes ++ [0])[i]? = some b → p.load mem (x + i) = some b

/-- What `sys_exec` passes on for the user pointer `uargv`: the strings that `fetchstr` has accepted
in the memory of the process, at most 31 of them. -/
def Proc.Passes (p : Proc) (mem : Phys) (uargv : ℕ) (argv : List ArgStr) : Prop :=
  ∃ strs, (Code.fetchArgs uargv maxarg 0 : Code p _).eval mem = some (some strs) ∧
    List.Forall₂ (fun s a ↦ p.HoldsString mem s.addr a) strs argv

/-- What `fetchstr` accepts is a string. -/
theorem exists_argStr {pages : Key → ℕ} {p : Proc} {mem : Phys} (h : LaidOut pages p) {a d : ℕ}
    {s : Str p} (hs : (Code.fetchstr a : Code p _).eval mem = some (some (s, d))) :
    ∃ x : ArgStr, p.HoldsString mem s.addr x := by
  obtain ⟨rfl, hin, hnul, hnon⟩ := (fetchstr_accepts_iff h s d).mp hs
  have hlt : d < usertop := by
    have h1 := (h.below_bound_iff.mpr hin).2
    have h2 := h.bound_le s.addr
    omega
  refine ⟨⟨(List.range d).map fun i ↦ (p.load mem (s.addr + i)).getD 0, fun hmem ↦ ?_,
    by rwa [List.length_map, List.length_range]⟩, fun i b hb ↦ ?_⟩
  · obtain ⟨i, hi, hzero⟩ := List.mem_map.mp hmem
    obtain ⟨b, hb, hne⟩ := hnon i (List.mem_range.mp hi)
    rw [hb] at hzero
    exact hne hzero
  · by_cases hi : i < d
    · obtain ⟨c, hc, -⟩ := hnon i hi
      rw [List.getElem?_append_left (by simpa using hi), List.getElem?_map,
        List.getElem?_range hi, Option.map_some, hc] at hb
      rw [hc, ← hb]
      rfl
    · have hlen := (List.getElem?_eq_some_iff.mp hb).1
      rw [List.length_append, List.length_map, List.length_range, List.length_singleton] at hlen
      obtain rfl : i = d := by omega
      rw [List.getElem?_append_right (by simp)] at hb
      rw [hnul, ← hb]
      simp

/-- What `sys_exec` has fetched is a vector of strings. -/
theorem exists_passes {pages : Key → ℕ} {p : Proc} {mem : Phys} (h : LaidOut pages p) {uargv : ℕ}
    {strs : List (Str p)}
    (hf : (Code.fetchArgs uargv maxarg 0 : Code p _).eval mem = some (some strs)) :
    ∃ argv, p.Passes mem uargv argv := by
  have hall : ∀ (n i : ℕ) (strs : List (Str p)),
      (Code.fetchArgs uargv n i : Code p _).eval mem = some (some strs) →
      ∃ argv, List.Forall₂ (fun s a ↦ p.HoldsString mem s.addr a) strs argv := by
    intro n
    induction n with
    | zero => exact fun i strs hf ↦ by cases hf
    | succ n ih =>
      intro i strs hf
      rw [Code.fetchArgs, Prog.eval_bind] at hf
      obtain ⟨_ | uarg, -, hf⟩ := Option.bind_eq_some_iff.mp hf
      · cases hf
      simp only at hf
      split at hf
      · cases hf
        exact ⟨[], .nil⟩
      rw [Prog.eval_bind] at hf
      obtain ⟨_ | ⟨s, d⟩, hs, hf⟩ := Option.bind_eq_some_iff.mp hf
      · cases hf
      simp only at hf
      rw [Prog.eval_bind] at hf
      obtain ⟨rest, hrest, hf⟩ := Option.bind_eq_some_iff.mp hf
      obtain ⟨strs', rfl, rfl⟩ := Option.map_eq_some_iff.mp (Option.some.inj hf)
      obtain ⟨a, ha⟩ := exists_argStr h hs
      obtain ⟨argv, hargv⟩ := ih _ _ hrest
      exact ⟨a :: argv, .cons ha hargv⟩
  obtain ⟨argv, hargv⟩ := hall _ _ _ hf
  exact ⟨argv, strs, hf, hargv⟩

/-- The segments hold the bytes of the file, and zeros behind them. The stack page holds the fake
return address at `esp`, then `argc` and the address of a null-terminated array of pointers to
copies of the argument strings; array and strings lie in the stack page as well. -/
structure ImageRight (f : File) (argv : List ArgStr) (p : Proc) (esp : ℕ) (mem : Phys) : Prop where
  file : ∀ ph ∈ f.segments, ∀ i, i < ph.filesz →
    ∃ b, f.bytes[ph.offset + i]? = some b ∧ p.load mem (ph.va + i) = some b
  zero : ∀ ph ∈ f.segments, ∀ i, ph.filesz ≤ i → i < ph.memsz →
    p.load mem (ph.va + i) = some 0
  stack : p.InStack esp 12
  ret : p.loadWord mem esp = some 0xFFFFFFFF#32
  argc : p.loadWord mem (esp + 4) = some (BitVec.ofNat 32 argv.length)
  argv : ∃ a, p.loadWord mem (esp + 8) = some (BitVec.ofNat 32 a) ∧
    p.InStack a (4 * (argv.length + 1)) ∧
    p.loadWord mem (a + 4 * argv.length) = some 0 ∧
    ∀ i s, argv[i]? = some s → ∃ x, p.loadWord mem (a + 4 * i) = some (BitVec.ofNat 32 x) ∧
      p.InStack x (s.bytes.length + 1) ∧ p.HoldsString mem x s

/-- Where the segments of a loaded executable lie: below the stack page. -/
theorem exec_segments {argv : List Arg} (hok : MemOk L s.mem) (hq : (s.proc q).state ≠ .unused)
    (h : exec L q (some f) argv s = .ok (t, 0, tr)) :
    ∀ ph ∈ f.segments, ph.filesz ≤ ph.memsz ∧
      (ph.va + ph.memsz) % 2 ^ 32 + pgsize ≤ (t.proc q).sz ∧ ph.Complete f := by
  have hp := hok.procs q _ (mem_proc hq)
  have htop : (s.proc q).shmtop ≤ usertop := hp.top_le
  obtain ⟨m₁, d, im, -, -, hfresh, himage, hbuild, -, -, hsz⟩ := exec_built hok hq h
  obtain ⟨im₁, hload, hok₁, hgrow, hne, -⟩ := buildImage_pushed himage htop hp.top_aligned hbuild
  have hmax := (grow_sz hgrow hne).2
  have hle := hok₁.sz_le.trans htop
  intro ph hph
  obtain ⟨hsizes, hend, hcomplete⟩ :=
    (loadSegments_segments himage (hfresh.space hok.free).2 htop hload).2 ph hph
  refine ⟨hsizes, ?_, hcomplete⟩
  rw [hsz, hmax]
  simp only [pgRoundUp, pageUp, pgsize, usertop] at *
  omega

/-- What is pushed fits in the stack page, so the image is right. -/
theorem Backed.imageRight {p : Proc} {l : List ℕ} {argv : List ArgStr} {mem : Phys}
    (hd : Backed L p.pgdir l) (hlen : l.length * pgsize = p.sz) (hwf : f.WellFormed)
    (hsegs : ∀ ph ∈ f.segments, ph.filesz ≤ ph.memsz ∧
      (ph.va + ph.memsz) % 2 ^ 32 + pgsize ≤ p.sz ∧ ph.Complete f)
    (hesp : execEsp argv p.sz + stackBytes argv = p.sz)
    (hsp : argSp argv p.sz + (argv.map ArgStr.room).sum = p.sz)
    (hmem : Stored l mem (stackContents argv p.sz f.contents)) (hfit : stackBytes argv ≤ pgsize) :
    ImageRight f argv p (execEsp argv p.sz) mem := by
  have hlen160 := hd.length
  have htop : p.sz ≤ usertop := by
    simp only [pgsize, usertop] at *
    omega
  have halign : p.sz % 4 = 0 := by
    rw [← hlen]
    simp only [pgsize]
    omega
  have hroom : (argv.map ArgStr.room).sum ≤ p.sz := by omega
  have hustack : execEsp argv p.sz + (3 + argv.length + 1) * 4 = argSp argv p.sz := by
    rw [stackBytes] at hesp
    omega
  -- below the stack there are the segments only
  have hlow : ∀ x, x < execEsp argv p.sz →
      stackContents argv p.sz f.contents x = f.contents x := by
    intro x hx
    rw [stackContents, overlay.of_lt hx, argContents_other _ htop halign hroom (.inl (by omega))]
  have hsegment : ∀ ph ∈ f.segments, ∀ i, i < ph.memsz →
      p.load mem (ph.va + i) = some (if i < ph.filesz then f.data (ph.offset + i) else 0) := by
    intro ph hph i hi
    have hend := (hsegs ph hph).2.1
    rw [Nat.mod_eq_of_lt (hwf.fits ph hph)] at hend
    rw [hd.load hmem (by omega), hlow _ (by omega), File.contents,
      foldl_load_segment hwf.inOrder (fun ph' hph' ↦ (hsegs ph' hph').1) hph _ hi]
  -- the words of `ustack`
  have hword : ∀ i w, (ustack argv p.sz)[i]? = some w →
      p.loadWord mem (execEsp argv p.sz + 4 * i) = some w := by
    intro i w hi
    have hlt : i < 3 + argv.length + 1 := by
      rw [← length_ustack argv p.sz]
      exact (List.getElem?_eq_some_iff.mp hi).1
    exact hd.loadWord hmem (by omega) fun j b hj ↦ stackContents_word f.contents hi hj
  have hptr : sub32 (argSp argv p.sz) ((argv.length + 1) * 4) = execEsp argv p.sz + 12 := by
    rw [sub32_of_le (by omega) (by simp only [usertop] at htop; omega)]
    omega
  constructor
  · intro ph hph i hi
    obtain ⟨hsizes, -, hcomplete⟩ := hsegs ph hph
    have hin : ph.offset + i < f.bytes.length := by
      rcases hcomplete with hzero | hfile
      · omega
      · exact lt_of_lt_of_le (by omega) hfile
    refine ⟨_, List.getElem?_eq_getElem hin, ?_⟩
    rw [hsegment ph hph i (by omega), if_pos hi, File.data, List.getElem?_eq_getElem hin]
    rfl
  · intro ph hph i h1 h2
    rw [hsegment ph hph i h2, if_neg (by omega)]
  · exact ⟨by omega, by omega⟩
  · have hret := hword 0 _ (ustack_zero argv p.sz)
    rwa [Nat.mul_zero, Nat.add_zero] at hret
  · have hargc := hword 1 _ (ustack_one argv p.sz)
    rwa [Nat.mul_one] at hargc
  · refine ⟨execEsp argv p.sz + 12, ?_, ⟨by omega, by omega⟩, ?_, fun i a ha ↦ ?_⟩
    · have hargv := hword 2 _ (ustack_two argv p.sz)
      rwa [hptr] at hargv
    · rw [Nat.add_assoc, show 12 + 4 * argv.length = 4 * (3 + argv.length) by omega]
      refine hword _ _ ?_
      rw [ustack_add, List.getElem?_append_right (by rw [List.length_map, length_argPtrs]),
        List.length_map, length_argPtrs, Nat.sub_self]
      rfl
    · have hi : i < argv.length := (List.getElem?_eq_some_iff.mp ha).1
      have hi' : i < (argPtrs argv p.sz).length := by rwa [length_argPtrs]
      have hx := List.getElem?_eq_getElem hi'
      generalize (argPtrs argv p.sz)[i] = x at hx
      obtain ⟨h1, h2, h3⟩ := argContents_string f.contents htop halign hroom ha hx
      refine ⟨x, ?_, ⟨by omega, by omega⟩, fun j b hb ↦ ?_⟩
      · rw [Nat.add_assoc, show 12 + 4 * i = 4 * (3 + i) by omega]
        refine hword _ _ ?_
        rw [ustack_add, List.getElem?_append_left (by rwa [List.length_map]), List.getElem?_map, hx]
        rfl
      · have hj : j < a.bytes.length + 1 := by
          have := (List.getElem?_eq_some_iff.mp hb).1
          rwa [List.length_append, List.length_singleton] at this
        -- `ustack` lies below the strings
        rw [hd.load hmem (by omega), stackContents, overlay.of_le, h3 j b hb]
        rw [length_flatMap_wordBytes, length_ustack]
        omega

/-! ## Executables that are loaded -/

theorem Backed.copyoutPages_ok {d : PageDir} {l : List ℕ} (hd : Backed L d l) {n v : ℕ}
    (hv : v + n ≤ l.length) : Shm.copyoutPages d n v = .ok true := by
  induction n generalizing v with
  | zero => rfl
  | succ n ih =>
    have hlen := hd.length
    obtain ⟨r, -, hlookup⟩ := hd.exists_frame (v := v) (by omega)
    have huva : uva2ka d v = .ok (some r) := by
      rw [uva2ka, hlookup]
      rfl
    have hmod : (v + 1) % 2 ^ 20 = v + 1 := Nat.mod_eq_of_lt (by omega)
    rw [Shm.copyoutPages, huva, ok_bind]
    simp only
    rw [hmod]
    exact ih (by omega)

theorem Backed.copyout_ok {d : PageDir} {l : List ℕ} (hd : Backed L d l) {va n : ℕ}
    (hend : va + n ≤ l.length * pgsize) : Shm.copyout d va n = .ok true := by
  rw [Shm.copyout]
  split
  · rfl
  · refine hd.copyoutPages_ok ?_
    simp only [pageUp, pgsize] at *
    omega

theorem Backed.pushArgs_ok {d : PageDir} {l : List ℕ} (hd : Backed L d l) {argv : List ArgStr}
    {argc sp : ℕ} (hsp : sp ≤ l.length * pgsize) (halign : sp % 4 = 0)
    (hfit : (argv.map ArgStr.room).sum ≤ sp) (hargc : argc + argv.length ≤ maxarg) :
    Shm.pushArgs d (argv.map ArgStr.len) argc sp = .ok (some (argSp argv sp)) ∧
      argSp argv sp + (argv.map ArgStr.room).sum = sp := by
  induction argv generalizing argc sp with
  | nil => exact ⟨rfl, rfl⟩
  | cons a argv ih =>
    have hlen := hd.length
    rw [List.map_cons, List.sum_cons] at hfit
    rw [List.length_cons] at hargc
    have hlt := a.lt_room
    have hfour := a.room_mod
    have htop : sp ≤ usertop := by
      simp only [pgsize, usertop] at *
      omega
    have hroom : pushSp sp a.len + a.room = sp := pushSp_eq htop halign (by omega)
    have hcopy : Shm.copyout d (pushSp sp a.len) (a.bytes.length + 1) = .ok true :=
      hd.copyout_ok (by omega)
    obtain ⟨hrest, hsum⟩ := ih (show pushSp sp a.len ≤ l.length * pgsize by omega) (by omega)
      (by omega) (show argc + 1 + argv.length ≤ maxarg by omega)
    rw [argSp_cons, List.map_cons, List.map_cons, List.sum_cons]
    refine ⟨?_, by omega⟩
    rw [Shm.pushArgs, if_neg (by omega)]
    change (Shm.copyout d (pushSp sp a.len) (a.bytes.length + 1) >>= _) = _
    rw [hcopy, ok_bind]
    exact hrest

/-- Whatever fits in the image can be pushed. -/
theorem Backed.pushAll_ok {d : PageDir} {l : List ℕ} (hd : Backed L d l) {argv : List ArgStr}
    {sz : ℕ} (hsz : sz ≤ l.length * pgsize) (halign : sz % 4 = 0) (hfit : stackBytes argv ≤ sz)
    (hargc : argv.length ≤ maxarg) : Shm.pushAll d (argv.map ArgStr.len) sz = .ok true := by
  have hlen := hd.length
  rw [stackBytes] at hfit
  obtain ⟨hargs, hsum⟩ := hd.pushArgs_ok hsz halign
    (show (argv.map ArgStr.room).sum ≤ sz by omega)
    (show 0 + argv.length ≤ maxarg by rwa [Nat.zero_add])
  rw [Shm.pushAll, hargs, ok_bind]
  simp only [List.length_map]
  rw [sub32_of_le (by omega) (by simp only [pgsize] at *; omega)]
  exact hd.copyout_ok (by omega)

/-- An executable of 84 bytes with one segment: all of it goes to the address 0, and memory is asked
for two pages. -/
def twoPages : File where
  bytes := [0x7F, 0x45, 0x4C, 0x46] ++ List.replicate 24 0 ++ [52, 0, 0, 0] ++ List.replicate 12 0
    ++ [1, 0] ++ List.replicate 6 0 ++ [1, 0, 0, 0] ++ List.replicate 12 0 ++ [84, 0, 0, 0]
    ++ [0, 0x20, 0, 0] ++ List.replicate 8 0
  size_le := by decide

theorem twoPages_header : twoPages.proghdr 52 = ⟨1, 0, 0, 84, 0x2000⟩ := rfl

theorem twoPages_segments : twoPages.segments = [⟨1, 0, 0, 84, 0x2000⟩] := rfl

theorem twoPages_wellFormed : twoPages.WellFormed := by
  constructor
  · rw [twoPages_segments]
    exact fun ph hph ↦ by rw [List.mem_singleton.mp hph]; rfl
  · rw [twoPages_segments]
    exact fun ph hph ↦ by rw [List.mem_singleton.mp hph]; decide
  · rw [twoPages_segments]
    exact List.pairwise_singleton _ _

/-- The first process can execute it, with any strings that fit in the three pages of the image. -/
theorem exists_exec_twoPages : ∃ s, Reach kernelImage s ∧ s.Ready initproc ∧
    (s.proc initproc).sz = pgsize ∧ (s.proc initproc).Full ∧
    (∀ r, s.mem.uses r ≤ 1) ∧ ∀ argv : List ArgStr, argv.length ≤ maxarg →
      stackBytes argv ≤ 3 * pgsize → ∃ t tr,
      exec kernelImage initproc (some twoPages) (argv.map ArgStr.len) s = .ok (t, 0, tr) := by
  obtain ⟨s, hs, hready, hlen, hsz, htop, -, -, -, hfull⟩ :=
    exists_running_unreaped (L := kernelImage) (by rw [length_frames_kernelImage]; decide)
  rw [length_frames_kernelImage] at hlen
  have hok := hs.reach.memOk
  have huses := hs.sound.uses_le
  refine ⟨s, hs.reach, hready, hsz, hfull, huses, fun argv hargc hfit ↦ ?_⟩
  have helf : twoPages.IsElf := ⟨by decide, by decide⟩
  rcases setupkvm_outcome kernelImage s.freelist with ⟨-, hlt⟩ | ⟨m₁, d, hsetup, hfresh⟩
  · omega
  have hlen₁ := hfresh.length
  have himage := hfresh.imageOk hok.free (s.proc initproc).shmtop
  have hvalid := (hfresh.space hok.free).2
  rw [htop] at himage
  have htop' : usertop ≤ usertop := le_rfl
  -- the segment
  have hneed : pageUp (max 0 (⟨1, 0, 0, 84, 0x2000⟩ : Proghdr).newsz) = 2 := by decide
  have htaken : (⟨1, 0, 0, 84, 0x2000⟩ : Proghdr).Taken usertop m₁ 0 :=
    ⟨by decide, by decide, by decide, by omega⟩
  have hsafe : (⟨1, 0, 0, 84, 0x2000⟩ : Proghdr).Safe twoPages m₁
      (max 0 (⟨1, 0, 0, 84, 0x2000⟩ : Proghdr).newsz) := by
    refine ⟨by decide, fun j hj ↦ ?_⟩
    obtain rfl : j = 0 := by
      simp only [pgsize] at hj
      omega
    exact ⟨fun _ ↦ .inl (by decide), fun _ ↦ .inl (by decide)⟩
  obtain ⟨im₁, b, hseg, -⟩ := (loadSegment_iff (f := twoPages) himage hvalid htop' (by decide)
    trivial).mpr fun _ ↦ hsafe
  obtain ⟨hb, hgrown, -⟩ := loadSegment_ret himage hvalid htop' (by decide) hseg
  obtain rfl : b = true := hb.mpr ⟨htaken, .inr (by decide)⟩
  obtain ⟨hok₁, hsz₁⟩ := hgrown htaken
  have hsz₁' : im₁.sz = 0x2000 := hsz₁.trans
    (show max 0 (⟨1, 0, 0, 84, 0x2000⟩ : Proghdr).newsz = 0x2000 by decide)
  have hload : loadSegments kernelImage usertop twoPages twoPages.elfhdr.phnum
      twoPages.elfhdr.phoff ⟨m₁, d, 0, []⟩ = .ok (im₁, true) := by
    rw [show twoPages.elfhdr.phnum = 1 by decide, show twoPages.elfhdr.phoff = 52 by decide,
      loadSegments, if_neg (by decide), twoPages_header, if_neg (by decide), hseg, ok_bind]
    rfl
  -- the stack page
  have hround := hok₁.round (by decide)
  obtain ⟨im₂, l, hgrow, -, -, hcases⟩ :=
    grow_outcome ((pgRoundUp im₁.sz + pgsize) % 2 ^ 32) hround htop'
  have hup : pgRoundUp im₁.sz = 0x2000 := by rw [hsz₁']; decide
  have hthree : pageUp (max 0x2000 ((0x2000 + pgsize) % 2 ^ 32)) = 3 := by decide
  have hfits : Fits usertop m₁ (pgRoundUp im₁.sz) ((pgRoundUp im₁.sz + pgsize) % 2 ^ 32) := by
    rw [hup]
    exact ⟨by decide, by decide, by omega⟩
  rcases hcases with ⟨-, hnot, -⟩ | ⟨hsz₂, -, hok₂⟩
  · exact absurd hfits hnot
  have hsz₂' : im₂.sz = 3 * pgsize := by
    simp only [hup] at hsz₂
    exact hsz₂.trans (by decide)
  have hfree := FreeOf.of_uses hok huses hready.ne_unused (by rw [hready.1]; simp)
  have hnodup : m₁.Nodup := hfresh.drop ▸ hfree.nodup.sublist (List.drop_sublist 13 _)
  obtain ⟨hbacked, hl⟩ := hok₂.backed htop' ⟨hnodup, fun r hr ↦ (hvalid r hr).1⟩
  have hpush : pushAll im₂.pgdir (argv.map ArgStr.len) im₂.sz = .ok true := by
    rw [hsz₂']
    refine hbacked.pushAll_ok ?_ (by decide) hfit hargc
    rw [hl, hsz₂']
    decide
  have hbuild : buildImage kernelImage usertop twoPages (argv.map ArgStr.len) m₁ d
      = .ok (im₂, true) := by
    rw [buildImage, hload, ok_bind]
    simp only [hgrow, ok_bind]
    rw [if_neg (by rw [hsz₂']; decide), hpush, ok_bind]
    rfl
  obtain ⟨-, -, t, ht, -⟩ := commit_ok im₂ hok hready.ne_unused hok₂.sz_le
  refine ⟨t, im₂.trace, ?_⟩
  rw [exec, if_neg ((isElf_iff twoPages).mp helf), hsetup, ok_bind]
  simp only
  rw [htop, hbuild, ok_bind]
  simp only [ht, ok_bind]
  rfl

/-- A string of 2100 bytes. -/
def longArg : ArgStr where
  bytes := List.replicate 2100 1
  nulFree := fun h ↦ absurd (List.eq_of_mem_replicate h) (by decide)
  lt := by
    rw [List.length_replicate]
    decide

theorem longArg_length : longArg.bytes.length = 2100 := List.length_replicate

/-- The bytes of a page that holds `longArg` at the address 256, and at the address 0 two pointers to
it and a null pointer. -/
def twiceByte (x : ℕ) : BitVec 8 := if x = 1 ∨ x = 5 ∨ 256 ≤ x ∧ x < 2356 then 1 else 0

section Twice

variable {p : Proc} {mem : Phys} (hload : ∀ x, x < pgsize → p.load mem x = some (twiceByte x))

include hload

theorem loadWord_twice {x : ℕ} {w : BitVec 32} (hx : x + 4 ≤ pgsize)
    (hw : w = twiceByte (x + 3) ++ twiceByte (x + 2) ++ twiceByte (x + 1) ++ twiceByte x) :
    p.loadWord mem x = some w := by
  rw [Proc.loadWord, hload x (by omega), hload (x + 1) (by omega), hload (x + 2) (by omega),
    hload (x + 3) (by omega), hw]
  rfl

/-- A process of that one page passes the string twice. -/
theorem passes_twice {pages : Key → ℕ} (h : LaidOut pages p) (hsz : p.sz = pgsize) :
    p.Passes mem 0 [longArg, longArg] := by
  have hseg : ∀ {a e : ℕ}, a < pgsize → e ≤ pgsize → InSegment pages p a e := fun ha he ↦
    ⟨0, p.sz, .heap, Nat.zero_le _, by rwa [hsz], by rwa [hsz]⟩
  have hlt : 256 < bound p 256 :=
    ((h.below_bound_iff (a := 256) (e := 0)).mpr (hseg (by decide) (by decide))).1
  have hword : ∀ (x : ℕ) (w : BitVec 32), x + 4 ≤ pgsize →
      w = twiceByte (x + 3) ++ twiceByte (x + 2) ++ twiceByte (x + 1) ++ twiceByte x →
      (Code.fetchint x : Code p _).eval mem = some (some w) := fun x w hx hw ↦
    (fetchint_accepts_iff h w).mpr ⟨hseg (by omega) hx, loadWord_twice hload hx hw⟩
  have hbyte : ∀ i, i < 2100 → twiceByte (256 + i) = 1 := fun i hi ↦ if_pos (by omega)
  have hstr : (Code.fetchstr 256 : Code p _).eval mem = some (some (⟨256, hlt⟩, 2100)) := by
    refine (fetchstr_accepts_iff h _ _).mpr ⟨rfl, hseg (by decide) (by decide),
      hload _ (by decide), fun i hi ↦ ?_⟩
    exact ⟨1, by rw [hload _ (by simp only [pgsize]; omega), hbyte i hi], by decide⟩
  have hholds : p.HoldsString mem 256 longArg := by
    intro i b hb
    have hi := (List.getElem?_eq_some_iff.mp hb).1
    rw [List.length_append, longArg_length, List.length_singleton] at hi
    rw [hload _ (by simp only [pgsize]; omega)]
    by_cases hlast : i < 2100
    · rw [List.getElem?_append_left (by rwa [longArg_length])] at hb
      rw [hbyte i hlast, List.eq_of_mem_replicate (List.mem_of_getElem? hb)]
    · obtain rfl : i = 2100 := by omega
      rw [List.getElem?_append_right longArg_length.le, longArg_length] at hb
      exact hb
  refine ⟨[⟨256, hlt⟩, ⟨256, hlt⟩], ?_, .cons hholds (.cons hholds .nil)⟩
  -- two pointers and the null pointer
  have hnil : (Code.fetchArgs 0 30 2 : Code p _).eval mem = some (some []) := by
    rw [Code.fetchArgs, Prog.eval_bind, show (0 + 4 * 2) % 2 ^ 32 = 8 from rfl,
      hword 8 0 (by decide) (by decide)]
    rfl
  have hone : (Code.fetchArgs 0 31 1 : Code p _).eval mem = some (some [⟨256, hlt⟩]) := by
    rw [Code.fetchArgs, Prog.eval_bind, show (0 + 4 * 1) % 2 ^ 32 = 4 from rfl,
      hword 4 0x100 (by decide) (by decide), Option.bind_some]
    simp only
    rw [if_neg (by decide), Prog.eval_bind, show (0x100 : BitVec 32).toNat = 256 from rfl, hstr,
      Option.bind_some]
    simp only
    rw [Prog.eval_bind, hnil]
    rfl
  rw [show maxarg = 31 + 1 from rfl, Code.fetchArgs, Prog.eval_bind,
    show (0 + 4 * 0) % 2 ^ 32 = 0 from rfl, hword 0 0x100 (by decide) (by decide), Option.bind_some]
  simp only
  rw [if_neg (by decide), Prog.eval_bind, show (0x100 : BitVec 32).toNat = 256 from rfl, hstr,
    Option.bind_some]
  simp only
  rw [Prog.eval_bind, hone]
  rfl

end Twice

/-- A process of one page passes a string twice. They do not fit in the stack page, and `exec`
returns 0. -/
theorem not_exec_image_right : ∃ s t tr argv mem, Reach kernelImage s ∧ s.Ready initproc ∧
    twoPages.WellFormed ∧ (s.proc initproc).Passes mem 0 argv ∧
    exec kernelImage initproc (some twoPages) (argv.map ArgStr.len) s = .ok (t, 0, tr) ∧
    ¬ImageRight twoPages argv (t.proc initproc) (execEsp argv (t.proc initproc).sz)
      (execBytes kernelImage initproc twoPages argv s mem) := by
  obtain ⟨s, hs, hready, hsz, hfull, -, hexec⟩ := exists_exec_twoPages
  have hroom : longArg.room = 2104 := by
    rw [ArgStr.room, longArg_length]
  have hbytes : stackBytes [longArg, longArg] = 4232 := by
    rw [stackBytes, List.map_cons, List.map_singleton, List.sum_cons, List.sum_singleton, hroom]
    rfl
  obtain ⟨t, tr, h⟩ := hexec [longArg, longArg] (by decide) (by rw [hbytes]; decide)
  obtain ⟨e, he⟩ := Option.isSome_iff_exists.mp (hfull 0 (by rw [hsz]; decide))
  let mem : Phys := fun y ↦ twiceByte (y - e.pa)
  have hload : ∀ x, x < pgsize → (s.proc initproc).load mem x = some (twiceByte x) := by
    intro x hx
    have hframe : (s.proc initproc).pgdir.frames (x / pgsize) = some e.pa := by
      rw [Nat.div_eq_of_lt hx, PageDir.frames, he]
      rfl
    rw [load_of_frames hframe, Nat.mod_eq_of_lt hx]
    exact congrArg (some ∘ twiceByte) (Nat.add_sub_cancel_left ..)
  refine ⟨s, t, tr, [longArg, longArg], mem, hs, hready, twoPages_wellFormed,
    passes_twice hload (hs.laidOut hready.ne_unused) hsz, h, fun hright ↦ ?_⟩
  obtain ⟨hesp, -⟩ := exec_esp hs.memOk hready.ne_unused h
  have hlow := hright.stack.1
  rw [hbytes] at hesp
  simp only [pgsize] at hlow
  omega

/-- **When `exec` builds the image it was asked for.** In every reachable state, for every
well-formed executable and all argument strings: if `exec` returns 0 and the image is right, what it
has pushed fits in one page; and if it fits, the image is right, unless a frame has two places. -/
theorem exec_image_right_iff (hs : Reach L s) (hq : s.Ready q) (argv : List ArgStr)
    (hwf : f.WellFormed) (h : exec L q (some f) (argv.map ArgStr.len) s = .ok (t, 0, tr))
    (mem : Phys) :
    (ImageRight f argv (t.proc q) (execEsp argv (t.proc q).sz) (execBytes L q f argv s mem) →
      stackBytes argv ≤ pgsize) ∧
    ((∀ r, s.mem.uses r ≤ 1) → stackBytes argv ≤ pgsize →
      ImageRight f argv (t.proc q) (execEsp argv (t.proc q).sz) (execBytes L q f argv s mem)) := by
  have hok := hs.memOk
  obtain ⟨hesp, hsp⟩ := exec_esp hok hq.ne_unused h
  constructor
  · intro hright
    have hlow := hright.stack.1
    omega
  · intro huses hfit
    obtain ⟨l, hbacked, hlen, hmem⟩ := exec_holds hok huses hq.ne_unused (by rw [hq.1]; simp)
      hwf.fits h mem
    exact hbacked.imageRight hlen hwf (exec_segments hok hq.ne_unused h) hesp hsp hmem hfit

/-- The string `a` fits. -/
theorem exec_image_right_short : ∃ s t tr a, Reach kernelImage s ∧
    exec kernelImage initproc (some twoPages) ([a].map ArgStr.len) s = .ok (t, 0, tr) ∧
    ∀ mem, ImageRight twoPages [a] (t.proc initproc) (execEsp [a] (t.proc initproc).sz)
      (execBytes kernelImage initproc twoPages [a] s mem) := by
  let a : ArgStr := ⟨[0x61], by decide, by decide⟩
  obtain ⟨s, hs, hready, -, -, huses, hexec⟩ := exists_exec_twoPages
  obtain ⟨t, tr, h⟩ := hexec [a] (by decide) (by decide)
  exact ⟨s, t, tr, a, hs, h, fun mem ↦
    (exec_image_right_iff hs hready [a] twoPages_wellFormed h mem).2 huses (by decide)⟩

end CS537.Shm
