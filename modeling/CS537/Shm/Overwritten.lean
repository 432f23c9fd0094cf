import CS537.Shm.Frames
import CS537.Shm.Layout

/-!
# An overwritten page table

An executable whose one segment lies in a page table of the process that calls `exec`. The file is
too short for the segment, so the call returns -1; by then the entries of all user pages are gone.
Layout and coherence of the address spaces hold as long as the calls are careful.
-/

open Function Holding Tally Transition

namespace CS537.Shm

variable {L : Link} {s : Kernel} {q : Slot} {T : ℕ}

/-! ## Files made of words -/

/-- Four bytes, little-endian. -/
def leBytes (n : ℕ) : List (BitVec 8) :=
  [BitVec.ofNat 8 n, BitVec.ofNat 8 (n / 256), BitVec.ofNat 8 (n / 65536),
    BitVec.ofNat 8 (n / 16777216)]

theorem getElem?_leBytes {w : List ℕ} (rest : List (BitVec 8)) {j i : ℕ} (hj : j < w.length)
    (hi : i < 4) : (w.flatMap leBytes ++ rest)[4 * j + i]? = (leBytes w[j])[i]? := by
  induction w generalizing j with
  | nil => cases hj
  | cons n w ih =>
    have hlen : (leBytes n).length = 4 := rfl
    rw [List.flatMap_cons, List.append_assoc]
    cases j with
    | zero => rw [List.getElem?_append_left (by omega), Nat.mul_zero, Nat.zero_add]; rfl
    | succ j =>
      rw [List.getElem?_append_right (by omega), hlen,
        show 4 * (j + 1) + i - 4 = 4 * j + i by omega]
      exact ih (Nat.lt_of_succ_lt_succ hj)

namespace File

variable {f : File} {w : List ℕ} {rest : List (BitVec 8)}

theorem ushort_words (h : f.bytes = w.flatMap leBytes ++ rest) {j : ℕ} (hj : j < w.length) :
    f.ushort (4 * j) = w[j] % 65536 := by
  have h0 := getElem?_leBytes rest hj (i := 0) (by decide)
  have h1 := getElem?_leBytes rest hj (i := 1) (by decide)
  rw [← h] at h0 h1
  rw [Nat.add_zero] at h0
  rw [ushort, byte, byte, h0, h1]
  simp only [leBytes, List.getElem?_cons_zero, List.getElem?_cons_succ, Option.getD_some,
    BitVec.toNat_ofNat]
  omega

theorem uint_words (h : f.bytes = w.flatMap leBytes ++ rest) {j : ℕ} (hj : j < w.length) :
    f.uint (4 * j) = w[j] % 2 ^ 32 := by
  have h2 := getElem?_leBytes rest hj (i := 2) (by decide)
  have h3 := getElem?_leBytes rest hj (i := 3) (by decide)
  rw [← h] at h2 h3
  rw [uint, ushort_words h hj, ushort, byte, byte, h2, h3]
  simp only [leBytes, List.getElem?_cons_zero, List.getElem?_cons_succ, Option.getD_some,
    BitVec.toNat_ofNat]
  omega

end File

/-! ## The executable -/

/-- The headers: one segment from the address `T` to `0x1000`, around `2 ^ 32`, with 641 bytes of
the file from the offset 84 on. -/
def zeroingWords (T : ℕ) : List ℕ :=
  [0x464C457F, 0, 0, 0, 0, 0, 0, 52, 0, 0, 0, 1, 0, 1, 84, T, 0, 641, 0x100001000 - T, 0, 0]

/-- There the file holds 640 zeros and ends. -/
def zeroing (T : ℕ) : File where
  bytes := (zeroingWords T).flatMap leBytes ++ List.replicate 640 0
  size_le := by
    rw [List.length_append, List.length_replicate]
    exact show 84 + 640 ≤ maxFileSize by decide

theorem zeroing_size : (zeroing T).size = 724 := by
  rw [File.size, zeroing, List.length_append, List.length_replicate]
  rfl

theorem zeroing_elfhdr : (zeroing T).elfhdr = ⟨0x464C457F, 52, 1⟩ := by
  have hmagic := File.uint_words (f := zeroing T) rfl (j := 0) (by decide : 0 < 21)
  have hphoff := File.uint_words (f := zeroing T) rfl (j := 7) (by decide : 7 < 21)
  have hphnum := File.ushort_words (f := zeroing T) rfl (j := 11) (by decide : 11 < 21)
  rw [File.elfhdr, hmagic, hphoff, hphnum]
  rfl

theorem zeroing_isElf : (zeroing T).IsElf :=
  ⟨by rw [zeroing_size]; decide, by rw [zeroing_elfhdr]⟩

theorem zeroing_proghdr (hlow : 0x1000 < T) (hT : T < 0x1000000) :
    (zeroing T).proghdr 52 = ⟨1, 84, T, 641, 0x100001000 - T⟩ := by
  have hword := fun j (hj : j < 21) ↦ File.uint_words (f := zeroing T) rfl (j := j) hj
  rw [File.proghdr, hword 13 (by decide), hword 14 (by decide), hword 15 (by decide),
    hword 17 (by decide), hword 18 (by decide)]
  refine congrArg₂ (fun va memsz ↦ Proghdr.mk 1 84 va 641 memsz) ?_ ?_
  · exact Nat.mod_eq_of_lt (Nat.lt_trans hT (by decide))
  · exact Nat.mod_eq_of_lt (show 0x100001000 - T < 2 ^ 32 by omega)

theorem zeroing_data {j : ℕ} (hj : 84 ≤ j) : (zeroing T).data j = 0 := by
  have hlen : ((zeroingWords T).flatMap leBytes).length = 84 := rfl
  rw [File.data, zeroing, List.getElem?_append_right (hlen ▸ hj), List.getElem?_replicate]
  split <;> rfl

theorem zeroing_slice (n : ℕ) : (zeroing T).slice 84 n = List.replicate n 0 := by
  refine List.eq_replicate_iff.mpr ⟨by rw [File.slice, List.length_map, List.length_range'], ?_⟩
  intro b hb
  obtain ⟨j, hj, rfl⟩ := List.mem_map.mp hb
  exact zeroing_data (List.mem_range'_1.mp hj).1

/-! ## The page table after it -/

theorem PageTable.store_zeros (t : PageTable) {i : ℕ} (hi : i < 160) :
    (t.store (List.replicate 640 0)).entry i = none := by
  have hbyte : ∀ j, j < 640 → overlay t.byte 0 (List.replicate 640 (0 : BitVec 8)) j = 0 := by
    intro j hj
    have h := overlay.of_getElem? (g := t.byte) (a := 0) (List.getElem?_replicate_of_lt
      (a := (0 : BitVec 8)) hj)
    rwa [Nat.zero_add] at h
  rw [PageTable.store, List.length_replicate]
  simp only
  rw [if_pos (by omega), hbyte _ (by omega), hbyte _ (by omega), hbyte _ (by omega),
    hbyte _ (by omega)]
  rfl

/-- The user pages are gone. -/
theorem PageDir.store_zeros {d : PageDir} (h : d.tab 0 = some T) {v : ℕ} (hv : v < 160) :
    (d.store T (List.replicate 640 0)).pte v = none := by
  obtain ⟨t, ht, rfl⟩ := Option.map_eq_some_iff.mp h
  have hpde : (d.store t.frame (List.replicate 640 0)).pde 0
      = some (t.store (List.replicate 640 0)) := by
    change (d.pde 0).map _ = _
    rw [ht]
    exact congrArg some (if_pos rfl)
  rw [PageDir.pte, Nat.div_eq_of_lt (by omega), Nat.mod_eq_of_lt (by omega), hpde]
  exact t.store_zeros hv

/-! ## The call -/

theorem strays_allocs (taken l : List ℕ) (tr : List Event) :
    strays taken (l.map .alloc ++ tr) = strays (l.reverse ++ taken) tr := by
  induction l generalizing taken with
  | nil => rfl
  | cons r l ih =>
    rw [List.map_cons, List.cons_append, strays, ih, List.reverse_cons, List.append_assoc]
    rfl

/-- The call gets a page for the image, stores 640 bytes at `T` and gives up. -/
theorem exec_zeroing (argv : List Arg) (hok : MemOk L s.mem) (hq : (s.proc q).state ≠ .unused)
    (hT : L.Valid T) (hlen : 14 ≤ s.freelist.length) (htop : 0x1000 ≤ (s.proc q).shmtop) :
    ∃ m, ∃ l : List ℕ, exec L q (some (zeroing T)) argv s
        = .ok (s.setFreelist m, -1, l.map .alloc ++ [.store T 84 640]) ∧
      ∀ r ∈ l, r ∈ s.freelist := by
  have hp := hok.procs q _ (mem_proc hq)
  have hkend := L.text_lt.trans_le (L.data_le.trans hT.2.1)
  have hsz : (s.proc q).sz ≤ usertop := hp.sz_le.trans hp.top_le
  obtain ⟨m, d, hsetup, hfresh⟩ := setupkvm_of_le (L := L) (show 13 ≤ s.freelist.length by omega)
  have hm := hfresh.length
  have himage := hfresh.imageOk hok.free (s.proc q).shmtop
  obtain ⟨im, l, hgrow, -, htrace, hcases⟩ := grow_outcome 0x1000 himage hp.top_le
  have hone : pageUp (max 0 0x1000) = 1 := by decide
  have hfits : Fits (s.proc q).shmtop m 0 0x1000 := ⟨htop, by decide, by omega⟩
  obtain ⟨hsz₁, -, hok₁⟩ := hcases.resolve_left fun h ↦ h.2.1 hfits
  rw [List.nil_append] at htrace
  -- the table is mapped to its own address
  have hpage : 160 ≤ T / pgsize ∧ T / pgsize < 4096 := by
    have hend := hT.2.2
    simp only [pgsize, phystop] at *
    omega
  have hmul : T / pgsize * pgsize = T := Nat.div_mul_cancel (Nat.dvd_of_mod_eq_zero hT.1)
  obtain ⟨w, hw⟩ := kernelPte_high L hpage.1 (.inl hpage.2)
  have hpte : im.pgdir.pte (T / pgsize) = some ⟨T, w, false⟩ := by
    rw [hok₁.own.space.high _ hpage.1, hw, hmul]
  have hlookup : lookup im.pgdir (T / pgsize) = some (some ⟨T, w, false⟩) := by
    rw [lookup_of_tab (hok₁.own.space.isSome_tab_low hpage.2), hpte]
  have hload : loaduvm im.pgdir (zeroing T) T 84 641 = .ok ([.store T 84 640], false) := by
    have hread : readi (zeroing T).size ((84 + 0) % 2 ^ 32) (min (641 - 0) pgsize) = some 640 := by
      rw [zeroing_size]
      rfl
    rw [loaduvm, if_neg (not_not.mpr hT.1), show rounds 0 641 = 0 + 1 by decide, loadPages,
      Nat.add_zero, Nat.mod_eq_of_lt (hT.2.2.trans (by decide)), hlookup]
    simp only
    rw [hread]
    rfl
  have hseg : loadSegment L (s.proc q).shmtop (zeroing T) ⟨1, 84, T, 641, 0x100001000 - T⟩
      ⟨m, d, 0, []⟩ = .ok ({ im with trace := im.trace ++ [.store T 84 640] }, false) := by
    have hend := hT.2.2
    simp only [phystop] at hend
    have hnewsz : (T + (0x100001000 - T)) % 2 ^ 32 = 0x1000 := by omega
    rw [loadSegment, if_neg (by simp only; omega)]
    simp only
    rw [hnewsz, hgrow, ok_bind, hsz₁, if_neg (show ¬max 0 0x1000 = 0 by decide), hload]
    rfl
  have hbuild : buildImage L (s.proc q).shmtop (zeroing T) argv m d
      = .ok ({ im with trace := im.trace ++ [.store T 84 640] }, false) := by
    have hread : readi (zeroing T).size 52 proghdrSize = some proghdrSize := by
      rw [zeroing_size]
      rfl
    rw [buildImage, zeroing_elfhdr]
    simp only
    rw [loadSegments, if_neg (not_not.mpr hread),
      zeroing_proghdr ((show 0x1000 < 0x100000 by decide).trans hkend) hT.2.2,
      if_neg (not_not.mpr rfl), hseg]
    rfl
  obtain ⟨l', hfree, -⟩ := freevm_freed im.freelist hok₁.own.space hsz
  refine ⟨l' ++ im.freelist, l, ?_, fun r hr ↦ ?_⟩
  · rw [exec, if_neg ((isElf_iff _).mp zeroing_isElf), hsetup, ok_bind]
    simp only
    rw [hbuild, ok_bind]
    simp only
    rw [hfree, htrace]
    rfl
  · obtain ⟨l₀, hpages⟩ := hok₁.pages
    have hmem : r ∈ l₀ := (hpages.trace r).mp (by rw [htrace]; exact List.mem_map_of_mem hr)
    rw [← List.take_append_drop 13 s.freelist, hfresh.drop, hpages.taken]
    exact List.mem_append_right _ (List.mem_append_left _ hmem)


/-- In a sound state a page table is not free. -/
theorem Sound.tab_notMem (hs : Sound L s) (hq : (s.proc q).state ≠ .unused)
    (hT : (s.proc q).pgdir.tab 0 = some T) : T ∉ s.freelist := by
  intro hmem
  have huses := hs.uses_le T
  have hcount : 0 < s.mem.freelist.count T := List.count_pos_iff.mpr hmem
  have htables : 0 < (s.proc q).view.pgdir.tables T :=
    held_pos_iff.mpr ⟨0, Finset.mem_range.mpr (by decide), hT⟩
  have hle := le_tally (owned T) s.mem.proc q
  rw [mem_proc hq] at hle
  change (s.proc q).view.owns T ≤ _ at hle
  rw [ProcMem.owns] at hle
  rw [Mem.uses] at huses
  omega

/-- The call leaves the caller without user pages. -/
theorem step_zeroing (hs : Sound L s) (hq : s.Ready q) (hlen : 14 ≤ s.freelist.length)
    (htop : 0x1000 ≤ (s.proc q).shmtop) :
    ∃ T t, step L (.exec q (some (zeroing T)) []) s = some t ∧
      (∀ z, t.proc z = { s.proc z with pgdir := (t.proc z).pgdir }) ∧
      t.shmemPages = s.shmemPages ∧ ∀ v, v < 160 → (t.proc q).pgdir.pte v = none := by
  have hok := hs.reach.memOk
  have hspace := (hok.procs q _ (mem_proc hq.ne_unused)).space
  obtain ⟨T, htab⟩ := Option.isSome_iff_exists.mp (hspace.isSome_tab (v := 0) (by decide))
  obtain ⟨m, l, hexec, hl⟩ :=
    exec_zeroing [] hok hq.ne_unused (hspace.valid_tab _ _ htab) hlen htop
  have hstrays : strays [] (l.map .alloc ++ [.store T 84 640]) = [.store T 84 640] := by
    have hmem : T ∉ l.reverse ++ [] := fun h ↦
      hs.tab_notMem hq.ne_unused htab (hl T (by simpa using h))
    rw [strays_allocs, strays, if_pos ⟨by decide, hmem⟩]
    rfl
  let t := (s.setFreelist m).suffer (some (zeroing T)) (.store T 84 640)
  have hstep : step L (.exec q (some (zeroing T)) []) s = some t := by
    have hbears : ∀ e ∈ [Event.store T 84 640], s.Bears (-1) e := by
      rintro e he
      obtain rfl := List.mem_singleton.mp he
      exact .inr ⟨rfl, by decide, q, hq.ne_unused, htab⟩
    refine (if_pos hq).trans ?_
    rw [execStray, hexec]
    simp only [hstrays]
    exact if_pos hbears
  refine ⟨T, t, hstep, fun z ↦ ?_, rfl, fun v hv ↦ ?_⟩
  · by_cases hz : (s.proc z).state = .unused
    · rw [show t.proc z = s.proc z from if_pos hz]
    · rw [show t.proc z = { s.proc z with
        pgdir := (s.proc z).pgdir.store T ((zeroing T).slice 84 640) } from if_neg hz]
  · have hproc : t.proc q = { s.proc q with
        pgdir := (s.proc q).pgdir.store T ((zeroing T).slice 84 640) } := if_neg hq.ne_unused
    rw [hproc, zeroing_slice]
    exact PageDir.store_zeros htab hv

/-! ## Layout and coherence -/

/-- **Address-space layout.** In every state that careful calls reach, the size of a process that is
RUNNABLE, RUNNING or SLEEPING is at most its `shmtop`, its regions tile the addresses from there to
`USERTOP`, all of them mapped, and nothing is mapped in between. -/
theorem Sound.address_layout (hs : Sound L s) (hq : (s.proc q).Live) : s.Layout (s.proc q) :=
  hs.reach.layout hq

/-- The layout of a child that shares a region with its parent. -/
theorem address_layout_of_child : ∃ s z, Sound kernelImage s ∧ z ≠ initproc ∧
    (s.proc z).attachedKeys.Nonempty ∧ s.Layout (s.proc z) := by
  obtain ⟨s, z, k, hs, hne, -, hz, -, -, hinitk, hzk, -⟩ := exists_two_holders
  have hk : (s.proc z).shmemVaddr k ≠ 0 := by
    rw [hzk, hinitk, update_self]
    decide
  exact ⟨s, z, hs.sound, hne, ⟨k, Proc.mem_attachedKeys.mpr hk⟩, hs.sound.address_layout hz⟩

/-- A process has a region attached, and its page is not mapped. -/
theorem not_address_layout : ∃ s, Reachable (step kernelImage) (Booted kernelImage) s ∧
    (s.proc initproc).Live ∧ ¬s.Layout (s.proc initproc) := by
  obtain ⟨s, k, hs, hready, -, htop, -, -, -, hlen, -⟩ := exists_attached
  rw [length_frames_kernelImage] at hlen
  obtain ⟨T, t, hstep, hproc, -, hgone⟩ :=
    step_zeroing hs.sound hready (by omega) (by rw [htop]; decide)
  refine ⟨t, hs.sound.reachable.snoc hstep trivial, .inr (.inl (by rw [hproc]; exact hready.1)), ?_⟩
  intro hlayout
  obtain ⟨f, hf⟩ := hlayout.shared 159 (by rw [hproc, htop]; decide) (by decide)
  rw [hgone 159 (by decide)] at hf
  cases hf

/-- **Coherence of the shared regions.** In every state that careful calls reach, two processes that
have a region attached see the same byte at the same offset, in a frame recorded for the region. -/
theorem Sound.shared_coherent (hs : Sound L s) {k : Key} {p : Slot}
    (hp : (s.proc p).Live) (hq : (s.proc q).Live) (hpk : (s.proc p).shmemVaddr k ≠ 0)
    (hqk : (s.proc q).shmemVaddr k ≠ 0) {o : ℕ} (ho : o < pgsize * s.shmemPages k) :
    ∃ i, i < s.shmemPages k ∧ ∃ b, b < pgsize ∧
      (s.proc p).pgdir.translate ((s.proc p).shmemVaddr k + o) = some (s.shmemPaddr k i + b) ∧
      (s.proc q).pgdir.translate ((s.proc q).shmemVaddr k + o) = some (s.shmemPaddr k i + b) :=
  hs.reach.coherent hp hq hpk hqk ho

/-- The last byte of a page that a child shares with its parent. -/
theorem shared_coherent_child : ∃ s z k, Sound kernelImage s ∧ z ≠ initproc ∧
    ∃ i, i < s.shmemPages k ∧ ∃ b, b < pgsize ∧
      (s.proc initproc).pgdir.translate ((s.proc initproc).shmemVaddr k + 4095)
        = some (s.shmemPaddr k i + b) ∧
      (s.proc z).pgdir.translate ((s.proc z).shmemVaddr k + 4095)
        = some (s.shmemPaddr k i + b) := by
  obtain ⟨s, z, k, hs, hne, hinit, hz, -, -, hvaddr, hzvaddr, hpages, -⟩ := exists_two_holders
  have hk : (s.proc initproc).shmemVaddr k ≠ 0 := by
    rw [hvaddr, update_self]
    decide
  exact ⟨s, z, k, hs.sound, hne, hs.sound.shared_coherent (.inr (.inl hinit.1)) hz hk
    (by rwa [hzvaddr]) (by rw [hpages]; decide)⟩

/-- Two processes have a region attached, and one of them does not see it. -/
theorem not_shared_coherent : ∃ s z k, Reachable (step kernelImage) (Booted kernelImage) s ∧
    (s.proc initproc).Live ∧ (s.proc z).Live ∧ z ≠ initproc ∧
    (s.proc initproc).shmemVaddr k ≠ 0 ∧ (s.proc z).shmemVaddr k ≠ 0 ∧ 0 < s.shmemPages k ∧
    (s.proc initproc).pgdir.translate ((s.proc initproc).shmemVaddr k) = none := by
  obtain ⟨s, z, k, hs, hne, hready, hz, -, htop, hvaddr, hzvaddr, hpages, -, hlen⟩ :=
    exists_two_holders
  obtain ⟨T, t, hstep, hproc, hpages', hgone⟩ :=
    step_zeroing hs.sound hready hlen (by rw [htop]; decide)
  have hk : (s.proc initproc).shmemVaddr k = usertop - pgsize := by rw [hvaddr, update_self]
  refine ⟨t, z, k, hs.sound.reachable.snoc hstep trivial,
    .inr (.inl (by rw [hproc]; exact hready.1)), ?_, hne, by rw [hproc, hk]; decide,
    by rw [hproc, hzvaddr, hk]; decide, by rw [hpages', hpages]; decide, ?_⟩
  · rw [Proc.Live, hproc]
    exact hz
  · have hsame : (t.proc initproc).shmemVaddr k = (s.proc initproc).shmemVaddr k := by rw [hproc]
    rw [hsame, hk, PageDir.translate, PageDir.frames, hgone _ (by decide)]
    rfl

end CS537.Shm
