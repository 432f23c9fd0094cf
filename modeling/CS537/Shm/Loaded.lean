import CS537.Shm.ExecBytes
import CS537.Shm.ExecSafe

/-!
# The contents of a new image

The pages of an image lie in different frames, so what `exec` stores in frames can be read as stores
to one array of bytes, from the address 0 on. It starts out as zeros; the segments, the argument
strings and `ustack` are written over it.
-/

open Finset Function

namespace CS537.Shm

variable {L : Link}

/-! ## Frames as one array -/

/-- Different frames. -/
structure Separate (l : List ℕ) : Prop where
  nodup : l.Nodup
  aligned : ∀ f ∈ l, f % pgsize = 0

/-- The pages in the frames `l`, one after the other, hold the bytes `V`; behind them `V` is 0. -/
structure Stored (l : List ℕ) (mem : Phys) (V : ℕ → BitVec 8) : Prop where
  page : ∀ v f o, l[v]? = some f → o < pgsize → mem (f + o) = V (v * pgsize + o)
  beyond : ∀ x, l.length * pgsize ≤ x → V x = 0

namespace Stored

variable {l : List ℕ} {mem mem' : Phys} {V : ℕ → BitVec 8}

theorem nil (mem : Phys) : Stored [] mem fun _ ↦ 0 :=
  ⟨fun _ _ _ hv ↦ (nomatch hv), fun _ _ ↦ rfl⟩

/-- Memory outside of the pages may change. -/
theorem congr (h : Stored l mem V) (hsame : ∀ f ∈ l, ∀ y, InFrame f y → mem' y = mem y) :
    Stored l mem' V := by
  refine ⟨fun v f o hv ho ↦ ?_, h.beyond⟩
  rw [hsame f (List.mem_of_getElem? hv) _ ⟨Nat.le_add_right f o, Nat.add_lt_add_left ho f⟩]
  exact h.page v f o hv ho

/-- A block within one page. -/
theorem write (hl : Separate l) (h : Stored l mem V) {v f o : ℕ} {b : List (BitVec 8)}
    (hv : l[v]? = some f) (hfit : o + b.length ≤ pgsize) :
    Stored l (overlay mem (f + o) b) (overlay V (v * pgsize + o) b) := by
  have hlt : v < l.length := (List.getElem?_eq_some_iff.mp hv).1
  refine ⟨fun u g p hu hp ↦ ?_, fun x hx ↦ ?_⟩
  · have hpage := h.page u g p hu hp
    by_cases huv : u = v
    · subst huv
      obtain rfl : g = f := Option.some.inj (hu.symm.trans hv)
      have hsub : g + p - (g + o) = u * pgsize + p - (u * pgsize + o) := by omega
      rw [overlay, overlay, hpage, hsub]
      exact if_congr (by omega) rfl rfl
    · -- the block is in another frame, and in another page
      have hne : g ≠ f := by
        rintro rfl
        exact huv ((List.getElem?_inj (List.getElem?_eq_some_iff.mp hu).1 hl.nodup).mp
          (hu.trans hv.symm))
      have hg := hl.aligned g (List.mem_of_getElem? hu)
      have hf := hl.aligned f (List.mem_of_getElem? hv)
      rw [overlay.of_not, overlay.of_not, hpage]
      · simp only [pgsize] at *
        omega
      · simp only [pgsize] at *
        omega
  · rw [overlay.of_not, h.beyond x hx]
    simp only [pgsize] at *
    omega

/-- New pages, all of them cleared. -/
theorem clear {l' : List ℕ} (hl : Separate (l ++ l')) (h : Stored l mem V)
    (hmem : ∀ y, mem' y = if ∃ f ∈ l', InFrame f y then 0 else mem y) :
    Stored (l ++ l') mem' V := by
  refine ⟨fun v f o hv ho ↦ ?_, fun x hx ↦ h.beyond x ?_⟩
  · have hin : InFrame f (f + o) := ⟨Nat.le_add_right f o, Nat.add_lt_add_left ho f⟩
    rw [hmem]
    by_cases hlow : v < l.length
    · rw [List.getElem?_append_left hlow] at hv
      have hmemf := List.mem_of_getElem? hv
      rw [if_neg, h.page v f o hv ho]
      rintro ⟨f', hf', hin'⟩
      have heq := hin'.eq hin (hl.aligned f' (List.mem_append_right l hf'))
        (hl.aligned f (List.mem_append_left l' hmemf))
      exact (List.nodup_append'.mp hl.nodup).2.2 hmemf (heq ▸ hf')
    · rw [List.getElem?_append_right (not_lt.mp hlow)] at hv
      rw [if_pos ⟨f, List.mem_of_getElem? hv, hin⟩, h.beyond]
      simp only [pgsize]
      omega
  · rw [List.length_append, Nat.add_mul] at hx
    omega

end Stored

/-! ## Growing -/

variable {top : ℕ} {m₀ m₁ : Freelist} {im im' : Image} {V : ℕ → BitVec 8} {mem : Phys}

/-- The pages of the image `im`, in the first of the frames `m₁`, hold `V`. -/
def ImageHolds (m₁ : Freelist) (im : Image) : Phys → (ℕ → BitVec 8) → Prop :=
  Stored (m₁.take (pageUp im.sz))

theorem Separate.take {l : List ℕ} (h : Separate l) (n : ℕ) : Separate (l.take n) :=
  ⟨h.nodup.sublist (List.take_sublist n l), fun f hf ↦ h.aligned f (List.mem_of_mem_take hf)⟩

theorem ImagePages.drop {l : List ℕ} (h : ImagePages m₁ im l) :
    im.freelist = m₁.drop (pageUp im.sz) := by
  rw [h.taken, ← h.length, List.drop_left]

theorem ImageOk.of_grow (h : ImageOk L top m₀ m₁ im) (htop : top ≤ usertop) {newsz : ℕ}
    (hgrow : im.grow L top newsz = .ok im') (hne : im'.sz ≠ 0) : ImageOk L top m₀ m₁ im' := by
  obtain ⟨im₁, l, hgrow₁, -, -, ⟨hzero, -⟩ | ⟨-, -, hok⟩⟩ := grow_outcome newsz h htop
  · obtain rfl := Except.ok.inj (hgrow₁.symm.trans hgrow)
    exact absurd hzero hne
  · obtain rfl := Except.ok.inj (hgrow₁.symm.trans hgrow)
    exact hok

/-- New pages are cleared. -/
theorem ImageHolds.grow (h : ImageOk L top m₀ m₁ im) (htop : top ≤ usertop) (hm : Separate m₁)
    {newsz : ℕ} (hgrow : im.grow L top newsz = .ok im') (hne : im'.sz ≠ 0)
    (hmem : ImageHolds m₁ im mem V) : ImageHolds m₁ im' (im.growBytes top newsz mem) V := by
  obtain ⟨l, hpages⟩ := h.pages
  obtain ⟨hle, hsz⟩ := grow_sz hgrow hne
  have h160 := pageUp_le (hle.trans htop)
  rw [ImageHolds, hsz]
  rw [Image.growBytes, allocuvmBytes, if_neg (by omega)]
  by_cases hshrink : newsz < im.sz
  · rw [if_pos hshrink, max_eq_left hshrink.le]
    exact hmem
  rw [if_neg hshrink, max_eq_right (not_lt.mp hshrink)]
  have hmono := pageUp_mono (not_lt.mp hshrink)
  have hn : rounds (pageUp im.sz) newsz = pageUp newsz - pageUp im.sz := rfl
  -- the call has found enough frames
  obtain ⟨g, hg, hgrow⟩ := bind_eq_ok hgrow
  obtain rfl := Except.ok.inj hgrow
  rw [allocuvm, if_neg (by omega), if_neg hshrink] at hg
  obtain ⟨⟨m', d', l', ok⟩, halloc, hg⟩ := bind_eq_ok hg
  cases ok with
  | false =>
    obtain ⟨⟨m'', d'', ret⟩, -, hg⟩ := bind_eq_ok hg
    obtain rfl := Except.ok.inj hg
    exact absurd rfl hne
  | true =>
    simp only [halloc]
    have hclear := allocPagesBytes_apply im.freelist h.own.space (v := pageUp im.sz)
      (n := rounds (pageUp im.sz) newsz) (by omega) (fun v h1 h2 ↦ hpages.gap h1 (by omega))
      h.own.valid mem
    have hsplit : m₁.take (pageUp newsz) = m₁.take (pageUp im.sz)
        ++ im.freelist.take (rounds (pageUp im.sz) newsz) := by
      rw [hpages.drop, hn, ← List.take_add, Nat.add_sub_cancel' hmono]
    have hsep := hm.take (pageUp newsz)
    rw [hsplit] at hsep ⊢
    exact hmem.clear hsep hclear

/-! ## Loading segments -/

theorem File.length_slice (f : File) (off n : ℕ) : (f.slice off n).length = n := by
  rw [File.slice, List.length_map, List.length_range']

theorem File.slice_append (f : File) (off n k : ℕ) :
    f.slice off n ++ f.slice (off + n) k = f.slice off (n + k) := by
  rw [File.slice, File.slice, File.slice, ← List.map_append]
  congr 1
  simp

theorem File.getElem?_slice (f : File) (off : ℕ) {n i : ℕ} (hi : i < n) :
    (f.slice off n)[i]? = some (f.data (off + i)) := by
  rw [File.slice, List.getElem?_map, List.getElem?_range' hi, Option.map_some, Nat.one_mul]

/-- The user pages of the address space `d` are the frames `l`. -/
structure Backed (L : Link) (d : PageDir) (l : List ℕ) : Prop where
  space : Space L d
  separate : Separate l
  length : l.length ≤ 160
  pte : ∀ v, v < 160 → d.pte v = (l[v]?).map fun r ↦ ⟨r, true, true⟩

theorem Backed.exists_frame {d : PageDir} {l : List ℕ} (h : Backed L d l) {v : ℕ}
    (hv : v < l.length) : ∃ r, l[v]? = some r ∧ lookup d v = some (some ⟨r, true, true⟩) := by
  have hlen := h.length
  refine ⟨l.get ⟨v, hv⟩, List.getElem?_eq_getElem hv, ?_⟩
  rw [lookup_of_tab (h.space.isSome_tab (by omega)), h.pte v (by omega),
    List.getElem?_eq_getElem hv]
  rfl

/-- The loop of `loaduvm` from round `j` on, for a segment that lies in the image and in the
file. -/
theorem Backed.loadPages {d : PageDir} {l : List ℕ} (hd : Backed L d l) {f : File}
    {addr offset sz : ℕ} (halign : addr % pgsize = 0) (hend : addr + sz ≤ l.length * pgsize)
    (hfile : offset + sz ≤ f.size) {n j : ℕ} (hn : j + n = pageUp sz) (hmem : Stored l mem V) :
    Stored l (loadPagesBytes d f addr offset sz n (j * pgsize) mem)
      (overlay V (addr + j * pgsize) (f.slice (offset + j * pgsize) (sz - j * pgsize))) := by
  induction n generalizing j mem V with
  | zero =>
    have hnone : sz - j * pgsize = 0 := by
      simp only [pageUp, pgsize] at *
      omega
    rw [hnone]
    change Stored l mem (overlay V _ [])
    rwa [overlay.nil]
  | succ n ih =>
    have hlen := hd.length
    have hsize : f.size ≤ maxFileSize := f.size_le
    have hrest : j * pgsize < sz := by
      simp only [pageUp, pgsize] at *
      omega
    have hv : (addr + j * pgsize) % 2 ^ 32 / pgsize = addr / pgsize + j := by
      simp only [pgsize] at *
      omega
    have hva : addr + j * pgsize = (addr / pgsize + j) * pgsize + 0 := by
      simp only [pgsize] at *
      omega
    obtain ⟨r, hr, hlookup⟩ := hd.exists_frame (v := addr / pgsize + j) (by
      simp only [pgsize] at *
      omega)
    have hoff : (offset + j * pgsize) % 2 ^ 32 = offset + j * pgsize := by
      simp only [maxFileSize, pgsize] at *
      omega
    -- the round reads a page, or what is left of the segment
    generalize hk : min (sz - j * pgsize) pgsize = k
    have hkle : k ≤ pgsize := hk ▸ Nat.min_le_right _ _
    have hread : readi f.size (offset + j * pgsize) k = some k := by
      rcases readi_cases f (offset + j * pgsize) k (by simp only [pgsize] at *; omega) hkle
        (by simp only [maxFileSize, pgsize] at *; omega) with ⟨h, -⟩ | ⟨-, h, -⟩ | ⟨-, h⟩
      · omega
      · omega
      · exact h
    have hwrite := hmem.write hd.separate hr (b := f.slice (offset + j * pgsize) k) (o := 0)
      (by rwa [File.length_slice, Nat.zero_add])
    rw [← hva, Nat.add_zero] at hwrite
    have hround : Stored l (loadPagesBytes d f addr offset sz n ((j + 1) * pgsize)
        (overlay mem r (f.slice (offset + j * pgsize) k))) _ := ih (by omega) hwrite
    rw [loadPagesBytes, hv, hlookup]
    simp only [Option.map_some, Option.getD_some, hoff, hk, readiBytes, hread, if_true]
    rw [← Nat.succ_mul]
    have hjoin : overlay (overlay V (addr + j * pgsize) (f.slice (offset + j * pgsize) k))
        (addr + (j + 1) * pgsize) (f.slice (offset + (j + 1) * pgsize) (sz - (j + 1) * pgsize))
        = overlay V (addr + j * pgsize) (f.slice (offset + j * pgsize) (sz - j * pgsize)) := by
      rw [Nat.succ_mul]
      by_cases hlast : sz - j * pgsize ≤ pgsize
      · have hzero : sz - (j * pgsize + pgsize) = 0 := by omega
        rw [← hk, Nat.min_eq_left hlast, hzero]
        exact overlay.nil _ _
      · have hfull : k = pgsize := hk ▸ Nat.min_eq_right (not_le.mp hlast).le
        have hall : pgsize + (sz - (j * pgsize + pgsize)) = sz - j * pgsize := by omega
        have happend := overlay.append V (addr + j * pgsize) (f.slice (offset + j * pgsize) pgsize)
          (f.slice (offset + j * pgsize + pgsize) (sz - (j * pgsize + pgsize)))
        rw [File.length_slice, File.slice_append, hall] at happend
        rw [hfull, ← Nat.add_assoc, ← Nat.add_assoc, happend]
    rwa [hjoin] at hround

theorem ImageOk.backed (h : ImageOk L top m₀ m₁ im) (htop : top ≤ usertop) (hm : Separate m₁) :
    Backed L im.pgdir (m₁.take (pageUp im.sz)) ∧
      (m₁.take (pageUp im.sz)).length = pageUp im.sz := by
  obtain ⟨l, hpages⟩ := h.pages
  rw [← hpages.eq_take]
  refine ⟨⟨h.own.space, ?_, ?_, hpages.pte⟩, hpages.length⟩
  · rw [hpages.eq_take]
    exact hm.take _
  · rw [hpages.length]
    exact pageUp_le (h.sz_le.trans htop)

/-- The bytes `V` with the segment `ph` loaded. -/
def File.load (f : File) (V : ℕ → BitVec 8) (ph : Proghdr) : ℕ → BitVec 8 :=
  overlay V ph.va (f.slice ph.offset ph.filesz)

theorem ImageHolds.loadSegment (h : ImageOk L top m₀ m₁ im) (hvalid : ∀ f ∈ m₁, L.Valid f)
    (htop : top ≤ usertop) (hm : Separate m₁) {f : File} {ph : Proghdr} (hoff : ph.offset < 2 ^ 32)
    (hfit : ph.va + ph.memsz < 2 ^ 32) (hload : loadSegment L top f ph im = .ok (im', true))
    (hmem : ImageHolds m₁ im mem V) :
    ImageHolds m₁ im' (loadSegmentBytes L top f ph im mem) (f.load V ph) := by
  obtain ⟨⟨hsizes, -⟩, hcomplete⟩ := (loadSegment_ret h hvalid htop hoff hload).1.mp rfl
  have hnewsz : (ph.va + ph.memsz) % 2 ^ 32 = ph.va + ph.memsz := Nat.mod_eq_of_lt hfit
  rw [Shm.loadSegment, if_neg (not_lt.mpr hsizes)] at hload
  obtain ⟨im₁, hgrow, hload⟩ := bind_eq_ok hload
  rw [hnewsz] at hgrow
  split at hload
  · cases (Prod.mk.inj (Except.ok.inj hload)).2
  rename_i hne
  obtain ⟨⟨tr, ok⟩, hloaduvm, hload⟩ := bind_eq_ok hload
  obtain ⟨rfl, rfl⟩ := Prod.mk.inj (Except.ok.inj hload)
  have halign : ph.va % pgsize = 0 := by
    by_contra hnot
    rw [loaduvm, if_pos hnot] at hloaduvm
    cases hloaduvm
  obtain ⟨hbacked, hlen⟩ := (h.of_grow htop hgrow hne).backed htop hm
  have hgrown := ImageHolds.grow h htop hm hgrow hne hmem
  have hmax := (grow_sz hgrow hne).2
  simp only [loadSegmentBytes, if_neg (not_lt.mpr hsizes), hnewsz, hgrow, if_neg hne]
  rw [loaduvmBytes, if_neg (not_not.mpr halign)]
  change Stored (m₁.take (pageUp im₁.sz)) _ _
  rcases hcomplete with hzero | hfile
  · rw [File.load, hzero]
    change Stored _ _ (overlay V _ [])
    rw [overlay.nil]
    exact hgrown
  · have hend : ph.va + ph.filesz ≤ (m₁.take (pageUp im₁.sz)).length * pgsize := by
      rw [hlen, hmax]
      simp only [pageUp, pgsize]
      omega
    have hround := hbacked.loadPages halign hend hfile (n := rounds 0 ph.filesz) (j := 0)
      (Nat.zero_add _) hgrown
    rw [Nat.zero_mul, Nat.add_zero, Nat.add_zero, Nat.sub_zero] at hround
    exact hround

/-- The segments among `n` program headers from `off` on. -/
def File.segmentsFrom (f : File) : ℕ → ℕ → List Proghdr
  | 0, _ => []
  | n + 1, off =>
    if (f.proghdr off).type ≠ 1 then f.segmentsFrom n ((off + proghdrSize) % 2 ^ 32)
    else f.proghdr off :: f.segmentsFrom n ((off + proghdrSize) % 2 ^ 32)

theorem ImageHolds.loadSegments (h : ImageOk L top m₀ m₁ im) (hvalid : ∀ f ∈ m₁, L.Valid f)
    (htop : top ≤ usertop) (hm : Separate m₁) {f : File} {n off : ℕ}
    (hfit : ∀ ph ∈ f.segmentsFrom n off, ph.va + ph.memsz < 2 ^ 32)
    (hload : loadSegments L top f n off im = .ok (im', true)) (hmem : ImageHolds m₁ im mem V) :
    ImageHolds m₁ im' (loadSegmentsBytes L top f n off im mem)
      ((f.segmentsFrom n off).foldl f.load V) := by
  induction n generalizing off im mem V with
  | zero =>
    obtain ⟨rfl, -⟩ := Prod.mk.inj (Except.ok.inj hload)
    exact hmem
  | succ n ih =>
    rw [Shm.loadSegments] at hload
    split at hload
    · cases (Prod.mk.inj (Except.ok.inj hload)).2
    rename_i hread
    rw [File.segmentsFrom] at hfit
    rw [loadSegmentsBytes, File.segmentsFrom, if_neg hread]
    by_cases htype : (f.proghdr off).type ≠ 1
    · rw [if_pos htype] at hload hfit
      rw [if_pos htype, if_pos htype]
      exact ih h hfit hload hmem
    · rw [if_neg htype] at hload hfit
      rw [if_neg htype, if_neg htype]
      obtain ⟨⟨im₁, b⟩, hseg, hload⟩ := bind_eq_ok hload
      cases b with
      | false => cases (Prod.mk.inj (Except.ok.inj hload)).2
      | true =>
        simp only [hseg]
        exact ih ((loadSegment_memory h htop hseg).2 rfl)
          (fun ph hph ↦ hfit ph (List.mem_cons_of_mem _ hph)) hload
          (ImageHolds.loadSegment h hvalid htop hm (f.proghdr_offset_lt off)
            (hfit _ List.mem_cons_self) hseg hmem)

/-! ## The stack -/

theorem Backed.copyoutPages {d : PageDir} {l : List ℕ} (hd : Backed L d l) {n v o : ℕ}
    {buf : List (BitVec 8)} (ho : o < pgsize) (hn : n = pageUp (o + buf.length))
    (hend : v * pgsize + o + buf.length ≤ l.length * pgsize) (hmem : Stored l mem V) :
    Stored l (copyoutPagesBytes d n v o buf mem) (overlay V (v * pgsize + o) buf) := by
  induction n generalizing v o buf mem V with
  | zero =>
    have hnil : buf = [] := by
      refine List.length_eq_zero_iff.mp ?_
      simp only [pageUp, pgsize] at *
      omega
    rw [hnil, overlay.nil]
    exact hmem
  | succ n ih =>
    have hlen := hd.length
    have hdrop : (buf.drop (pgsize - o)).length = buf.length - (pgsize - o) := List.length_drop
    obtain ⟨hv, hn', hend'⟩ : v < l.length ∧ n = pageUp (0 + (buf.length - (pgsize - o))) ∧
        (v + 1) * pgsize + 0 + (buf.length - (pgsize - o)) ≤ l.length * pgsize := by
      simp only [pageUp, pgsize] at hn hend ho ⊢
      omega
    rw [← hdrop] at hn' hend'
    obtain ⟨r, hr, hlookup⟩ := hd.exists_frame hv
    have huva : uva2ka d v = .ok (some r) := by
      rw [uva2ka, hlookup]
      rfl
    have hmod : (v + 1) % 2 ^ 20 = v + 1 := Nat.mod_eq_of_lt (by omega)
    have htake : (buf.take (pgsize - o)).length = min (pgsize - o) buf.length := List.length_take
    have hwrite := hmem.write hd.separate hr (o := o) (b := buf.take (pgsize - o)) (by omega)
    have hround := ih (by decide) hn' hend' hwrite
    rw [copyoutPagesBytes, huva]
    simp only [hmod]
    -- a block that ends in this page leaves nothing to the later rounds
    by_cases hlast : buf.length ≤ pgsize - o
    · rw [List.drop_of_length_le hlast, overlay.nil] at hround
      rw [List.drop_of_length_le hlast]
      rwa [List.take_of_length_le hlast] at hround ⊢
    · have hnext : (v + 1) * pgsize + 0 = v * pgsize + o + (buf.take (pgsize - o)).length := by
        rw [htake, Nat.succ_mul]
        omega
      rwa [hnext, overlay.append, List.take_append_drop] at hround

theorem Backed.copyout {d : PageDir} {l : List ℕ} (hd : Backed L d l) {va : ℕ}
    {buf : List (BitVec 8)} (hend : va + buf.length ≤ l.length * pgsize) (hmem : Stored l mem V) :
    Stored l (copyoutBytes d va buf mem) (overlay V va buf) := by
  have hva : va / pgsize * pgsize + va % pgsize = va := Nat.div_add_mod' va pgsize
  rw [copyoutBytes]
  split
  · rename_i hnil
    rw [List.length_eq_zero_iff.mp hnil, overlay.nil]
    exact hmem
  · have hpages := hd.copyoutPages (n := pageUp (va % pgsize + buf.length)) (v := va / pgsize)
      (o := va % pgsize) (Nat.mod_lt va (by decide)) rfl (by rw [hva]; exact hend) hmem
    rwa [hva] at hpages

/-- What could be copied below `sp` has not wrapped. -/
theorem le_of_copyout {d : PageDir} (h : Space L d) {sp n a : ℕ} (hsp : sp ≤ usertop)
    (hn : n ≤ usertop) (hpos : 0 < n) (ha : a ≤ sub32 sp n) (ha' : sub32 sp n < a + 4)
    (hcopy : copyout d a n = .ok true) : n ≤ sp := by
  by_contra hlt
  rw [(copyout_below h hsp hn hpos ha ha').2 ?_] at hcopy
  · cases hcopy
  · rw [sub32, Nat.mod_eq_of_lt (by omega)] at ha'
    simp only [usertop] at *
    omega

/-- The bytes that the string takes on the stack. -/
def ArgStr.room (a : ArgStr) : ℕ := (a.bytes.length + 4) / 4 * 4

theorem argSp_cons (a : ArgStr) (argv : List ArgStr) (sp : ℕ) :
    argSp (a :: argv) sp = argSp argv (pushSp sp a.len) := by
  rw [argSp, argSp, List.foldl_cons]

/-- The bytes `V` with the strings pushed below `sp`. -/
def argContents : List ArgStr → ℕ → (ℕ → BitVec 8) → ℕ → BitVec 8
  | [], _, V => V
  | a :: argv, sp, V =>
    argContents argv (pushSp sp a.len) (overlay V (pushSp sp a.len) (a.bytes ++ [0]))

theorem argContents_cons (a : ArgStr) (argv : List ArgStr) (sp : ℕ) (V : ℕ → BitVec 8) :
    argContents (a :: argv) sp V
      = argContents argv (pushSp sp a.len) (overlay V (pushSp sp a.len) (a.bytes ++ [0])) := by
  rw [argContents.eq_def]

theorem pushSp_eq {sp : ℕ} {a : ArgStr} (hsp : sp ≤ usertop) (halign : sp % 4 = 0)
    (hle : a.bytes.length + 1 ≤ sp) : pushSp sp a.len + a.room = sp := by
  have hlen : (a.len : ℕ) = a.bytes.length := rfl
  rw [pushSp, hlen, sub32_of_le hle (by simp only [usertop] at *; omega), ArgStr.room]
  omega

theorem pushArgs_cons {d : PageDir} (h : Space L d) {a : ArgStr} {argv : List ArgStr}
    {argc sp sp' : ℕ} (hsp : sp ≤ usertop) (halign : sp % 4 = 0)
    (hpush : pushArgs d ((a :: argv).map ArgStr.len) argc sp = .ok (some sp')) :
    argc < maxarg ∧ copyout d (pushSp sp a.len) (a.bytes.length + 1) = .ok true ∧
      pushSp sp a.len + a.room = sp ∧
      pushArgs d (argv.map ArgStr.len) (argc + 1) (pushSp sp a.len) = .ok (some sp') := by
  rw [List.map_cons, pushArgs] at hpush
  split at hpush
  · cases Except.ok.inj hpush
  rename_i hargc
  obtain ⟨b, hcopy, hpush⟩ := bind_eq_ok hpush
  cases b with
  | false => cases Except.ok.inj hpush
  | true =>
    change copyout d (pushSp sp a.len) (a.bytes.length + 1) = .ok true at hcopy
    have hsub : pushSp sp a.len ≤ sub32 sp (a.bytes.length + 1) ∧
        sub32 sp (a.bytes.length + 1) < pushSp sp a.len + 4 := by
      change sub32 sp (a.bytes.length + 1) / 4 * 4 ≤ _ ∧
        _ < sub32 sp (a.bytes.length + 1) / 4 * 4 + 4
      omega
    have hle := le_of_copyout h hsp a.lt (Nat.succ_pos _) hsub.1 hsub.2 hcopy
    exact ⟨not_le.mp hargc, hcopy, pushSp_eq hsp halign hle, hpush⟩

theorem ArgStr.room_mod (a : ArgStr) : a.room % 4 = 0 := Nat.mul_mod_left _ 4

theorem ArgStr.lt_room (a : ArgStr) : a.bytes.length < a.room := by
  rw [ArgStr.room]
  omega

/-- Where the strings have been pushed, `sp` has not wrapped. -/
theorem pushArgs_sp {d : PageDir} (h : Space L d) {argv : List ArgStr} {argc sp sp' : ℕ}
    (hsp : sp ≤ usertop) (halign : sp % 4 = 0)
    (hpush : pushArgs d (argv.map ArgStr.len) argc sp = .ok (some sp')) :
    sp' = argSp argv sp ∧ sp' + (argv.map ArgStr.room).sum = sp := by
  induction argv generalizing argc sp with
  | nil =>
    obtain rfl := Option.some.inj (Except.ok.inj hpush)
    exact ⟨rfl, rfl⟩
  | cons a argv ih =>
    obtain ⟨-, -, hroom, hpush⟩ := pushArgs_cons h hsp halign hpush
    have hfour := a.room_mod
    obtain ⟨hsp', hsum⟩ := ih (by omega) (by omega) hpush
    rw [argSp_cons, List.map_cons, List.sum_cons]
    exact ⟨hsp', by omega⟩

theorem Backed.pushArgs {d : PageDir} {l : List ℕ} (hd : Backed L d l) {argv : List ArgStr}
    {argc sp sp' : ℕ} (hsp : sp ≤ l.length * pgsize) (halign : sp % 4 = 0)
    (hpush : pushArgs d (argv.map ArgStr.len) argc sp = .ok (some sp')) (hmem : Stored l mem V) :
    Stored l (pushArgsBytes d argv argc sp mem) (argContents argv sp V) := by
  induction argv generalizing argc sp mem V with
  | nil => exact hmem
  | cons a argv ih =>
    have hlen := hd.length
    have htop : sp ≤ usertop := by
      simp only [pgsize, usertop] at *
      omega
    obtain ⟨hargc, hcopy, hroom, hpush⟩ := pushArgs_cons hd.space htop halign hpush
    have hfour := a.room_mod
    have hfit := a.lt_room
    have hend : pushSp sp a.len + (a.bytes ++ [0]).length ≤ l.length * pgsize := by
      rw [List.length_append, List.length_singleton]
      omega
    have hrest := ih (by omega) (by omega) hpush (hd.copyout hend hmem)
    have hlen' : (a.len : ℕ) = a.bytes.length := rfl
    rw [pushArgsBytes.eq_def, argContents_cons]
    simp only [if_neg (not_le.mpr hargc), hlen', hcopy, if_true]
    exact hrest

/-- The bytes that `exec` needs on the stack. -/
def stackBytes (argv : List ArgStr) : ℕ :=
  (argv.map ArgStr.room).sum + (3 + argv.length + 1) * 4

/-- The bytes `V` with the strings and `ustack` on the stack that ends at `sz`. -/
def stackContents (argv : List ArgStr) (sz : ℕ) (V : ℕ → BitVec 8) : ℕ → BitVec 8 :=
  overlay (argContents argv sz V) (execEsp argv sz) ((ustack argv sz).flatMap wordBytes)

theorem length_argPtrs (argv : List ArgStr) (sp : ℕ) : (argPtrs argv sp).length = argv.length := by
  induction argv generalizing sp with
  | nil => rfl
  | cons a argv ih => rw [argPtrs, List.length_cons, ih, List.length_cons]

theorem length_flatMap_wordBytes (l : List (BitVec 32)) :
    (l.flatMap wordBytes).length = 4 * l.length := by
  induction l with
  | nil => rfl
  | cons w l ih =>
    rw [List.flatMap_cons, List.length_append, ih, List.length_cons, Nat.mul_succ, Nat.add_comm]
    rfl

theorem length_ustack (argv : List ArgStr) (sz : ℕ) :
    (ustack argv sz).length = 3 + argv.length + 1 := by
  rw [ustack, List.length_cons, List.length_cons, List.length_cons, List.length_append,
    List.length_map, length_argPtrs, List.length_singleton]
  omega

/-- Where all has been pushed, `esp` has not wrapped either. -/
theorem pushAll_esp {d : PageDir} (h : Space L d) {argv : List ArgStr} {sz : ℕ}
    (hsz : sz ≤ usertop) (halign : sz % 4 = 0)
    (hpush : pushAll d (argv.map ArgStr.len) sz = .ok true) :
    execEsp argv sz + stackBytes argv = sz ∧
      argSp argv sz + (argv.map ArgStr.room).sum = sz ∧
      pushArgs d (argv.map ArgStr.len) 0 sz = .ok (some (argSp argv sz)) := by
  obtain ⟨o, hargs, hlast⟩ := bind_eq_ok hpush
  cases o with
  | none => cases Except.ok.inj hlast
  | some sp =>
    obtain ⟨rfl, hsum⟩ := pushArgs_sp h hsz halign hargs
    have hzero : 0 ≤ maxarg := by decide
    obtain ⟨o, ho, hout⟩ := pushArgs_ok h (argv.map ArgStr.len) hsz hzero
    obtain rfl := Except.ok.inj (hargs.symm.trans ho)
    have hargc := (hout _ rfl).2
    simp only [List.length_map] at hlast hargc
    have hn : (3 + argv.length + 1) * 4 ≤ usertop := by
      simp only [maxarg, usertop] at *
      omega
    have hle := le_of_copyout h (by omega) hn (by omega) le_rfl (by omega) hlast
    have hesp : execEsp argv sz = argSp argv sz - (3 + argv.length + 1) * 4 := by
      refine sub32_of_le hle ?_
      simp only [usertop] at hsz
      omega
    refine ⟨?_, hsum, hargs⟩
    rw [stackBytes]
    omega

theorem Backed.pushAll {d : PageDir} {l : List ℕ} (hd : Backed L d l) {argv : List ArgStr}
    {sz : ℕ} (hsz : sz ≤ l.length * pgsize) (halign : sz % 4 = 0)
    (hpush : pushAll d (argv.map ArgStr.len) sz = .ok true) (hmem : Stored l mem V) :
    Stored l (pushAllBytes d argv sz mem) (stackContents argv sz V) := by
  have hlen := hd.length
  obtain ⟨hesp, hsum, hargs⟩ := pushAll_esp hd.space (by
    simp only [pgsize, usertop] at *
    omega) halign hpush
  have hend : execEsp argv sz + ((ustack argv sz).flatMap wordBytes).length
      ≤ l.length * pgsize := by
    rw [length_flatMap_wordBytes, length_ustack]
    rw [stackBytes] at hesp
    omega
  rw [pushAllBytes, hargs]
  exact hd.copyout hend (hd.pushArgs hsz halign hargs hmem)

/-! ## The finished image -/

/-- The segments of an executable, in the order of their headers. -/
def File.segments (f : File) : List Proghdr := f.segmentsFrom f.elfhdr.phnum f.elfhdr.phoff

/-- The bytes of the segments of an executable. -/
def File.contents (f : File) : ℕ → BitVec 8 := f.segments.foldl f.load fun _ ↦ 0

theorem ImageHolds.round (h : ImageHolds m₁ im mem V) :
    ImageHolds m₁ { im with sz := pgRoundUp im.sz } mem V := by
  rw [ImageHolds, pageUp_pgRoundUp]
  exact h

/-- What is known of an image that could be built: before and after the stack has been filled. -/
theorem buildImage_pushed {d : PageDir} (h : ImageOk L top m₀ m₁ ⟨m₁, d, 0, []⟩)
    (htop : top ≤ usertop) (halign : top % pgsize = 0) {f : File} {argv : List Arg}
    (hbuild : buildImage L top f argv m₁ d = .ok (im, true)) :
    ∃ im₁, loadSegments L top f f.elfhdr.phnum f.elfhdr.phoff ⟨m₁, d, 0, []⟩ = .ok (im₁, true) ∧
      ImageOk L top m₀ m₁ { im₁ with sz := pgRoundUp im₁.sz } ∧
      Image.grow L top ((pgRoundUp im₁.sz + pgsize) % 2 ^ 32)
        { im₁ with sz := pgRoundUp im₁.sz } = .ok im ∧
      im.sz ≠ 0 ∧ im.sz % pgsize = 0 ∧ pushAll im.pgdir argv im.sz = .ok true := by
  obtain ⟨⟨im₁, b⟩, hload, hbuild⟩ := bind_eq_ok hbuild
  cases b with
  | false => cases (Prod.mk.inj (Except.ok.inj hbuild)).2
  | true =>
    have hok₁ := ((loadSegments_memory h htop hload).2 rfl).round halign
    obtain ⟨im₂, hgrow, hbuild⟩ := bind_eq_ok hbuild
    split at hbuild
    · cases (Prod.mk.inj (Except.ok.inj hbuild)).2
    rename_i hne
    obtain ⟨ok, hpush, hbuild⟩ := bind_eq_ok hbuild
    obtain ⟨rfl, rfl⟩ := Prod.mk.inj (Except.ok.inj hbuild)
    refine ⟨im₁, hload, hok₁, hgrow, hne, ?_, hpush⟩
    obtain ⟨-, hsz⟩ := grow_sz hgrow hne
    have hup := hok₁.sz_le.trans htop
    rw [hsz]
    simp only [pgRoundUp, pgsize, usertop] at *
    omega

theorem ImageHolds.buildImage {d : PageDir} (h : ImageOk L top m₀ m₁ ⟨m₁, d, 0, []⟩)
    (hvalid : ∀ f ∈ m₁, L.Valid f) (htop : top ≤ usertop) (halign : top % pgsize = 0)
    (hm : Separate m₁) {f : File} (hfit : ∀ ph ∈ f.segments, ph.va + ph.memsz < 2 ^ 32)
    {argv : List ArgStr}
    (hbuild : buildImage L top f (argv.map ArgStr.len) m₁ d = .ok (im, true)) (mem : Phys) :
    ImageHolds m₁ im (buildImageBytes L top f argv m₁ d mem)
      (stackContents argv im.sz f.contents) := by
  obtain ⟨im₁, hload, hok₁, hgrow, hne, hpage, hpush⟩ := buildImage_pushed h htop halign hbuild
  have hempty : ImageHolds m₁ ⟨m₁, d, 0, []⟩ mem fun _ ↦ 0 := by
    change Stored (m₁.take (pageUp 0)) _ _
    rw [show pageUp 0 = 0 by decide]
    exact .nil mem
  have hround := (ImageHolds.loadSegments h hvalid htop hm hfit hload hempty).round
  obtain ⟨hbacked, hlen⟩ := (hok₁.of_grow htop hgrow hne).backed htop hm
  have hpushed := hbacked.pushAll (by
    rw [hlen]
    simp only [pageUp, pgsize]
    omega) (by simp only [pgsize] at *; omega) hpush (ImageHolds.grow hok₁ htop hm hgrow hne hround)
  rw [buildImageBytes]
  simp only [hload, hgrow, if_neg hne]
  exact hpushed

end CS537.Shm
