import CS537.Shm.Exec
import CS537.Shm.UserMap

/-!
# The image that `exec` builds

While the program headers are followed, the frames at the head of the free list become the pages of
the new image, in order, and nothing else below `USERTOP` is mapped. This is what `loaduvm` and
`copyout` find, and what is given back when `exec` gives up.
-/

open Finset Function Holding

namespace CS537.Shm

variable {L : Link}

/-- A new address space and the free list make up the memory `m₀` that `exec` has started with. -/
structure ImageOwn (L : Link) (m₀ : Freelist) (im : Image) : Prop where
  space : Space L im.pgdir
  valid : ∀ f ∈ im.freelist, L.Valid f
  count : ∀ f, im.freelist.count f + [im.pgdir.frame].count f + im.pgdir.tables f
    + held (range 160) im.pgdir.frames f = m₀.count f

/-- An image whose pages are the frames `l`. -/
structure ImagePages (m₁ : Freelist) (im : Image) (l : List ℕ) : Prop where
  taken : m₁ = l ++ im.freelist
  length : l.length = pageUp im.sz
  pte : ∀ v, v < 160 → im.pgdir.pte v = (l[v]?).map fun r ↦ ⟨r, true, true⟩
  trace : ∀ r, .alloc r ∈ im.trace ↔ r ∈ l

/-- The image while headers are followed; `m₁` is the free list after `setupkvm`. -/
structure ImageOk (L : Link) (shmtop : ℕ) (m₀ m₁ : Freelist) (im : Image) : Prop where
  own : ImageOwn L m₀ im
  sz_le : im.sz ≤ shmtop
  pages : ∃ l, ImagePages m₁ im l

/-- A request for the size `newsz` that `exec` does not take for a failure: it is not above
`shmtop`, not 0, and the frames `m₁` are enough for it. -/
def Fits (shmtop : ℕ) (m₁ : Freelist) (sz newsz : ℕ) : Prop :=
  newsz ≤ shmtop ∧ 0 < max sz newsz ∧ pageUp (max sz newsz) ≤ m₁.length

theorem ImagePages.gap {m₁ : Freelist} {im : Image} {l : List ℕ} (h : ImagePages m₁ im l) {v : ℕ}
    (h1 : pageUp im.sz ≤ v) (h2 : v < 160) : im.pgdir.pte v = none := by
  rw [h.pte v h2, List.getElem?_eq_none (by rw [h.length]; exact h1)]
  rfl

theorem Fresh.imageOk {m₀ m₁ : Freelist} {d : PageDir} (h : Fresh L m₀ m₁ d)
    (hm : ∀ f ∈ m₀, L.Valid f) (shmtop : ℕ) : ImageOk L shmtop m₀ m₁ ⟨m₁, d, 0, []⟩ := by
  obtain ⟨hspace, hvalid⟩ := h.space hm
  have hpte : ∀ v, v < 160 → d.pte v = none := fun v hv ↦ by
    rw [h.pte]
    exact kernelPte_user L hv
  refine ⟨⟨hspace, hvalid, fun f ↦ ?_⟩, Nat.zero_le _, [], rfl,
    (show 0 = pageUp 0 by decide), fun v hv ↦ ?_, by simp⟩
  · have hzero : held (range 160) d.frames f = 0 := by
      refine held_eq_zero_of_none (fun v hv ↦ ?_) f
      rw [PageDir.frames, hpte v (mem_range.mp hv)]
      rfl
    rw [hzero, Nat.add_zero]
    exact h.count f
  · rw [hpte v hv]
    rfl

/-- Pages mapped behind the image are the image's. -/
theorem ImageOwn.grown {m₀ m' : Freelist} {im : Image} {d' : PageDir} {l : List ℕ} (newsz : ℕ)
    (h : ImageOwn L m₀ im) (hmap : Mapped (pageUp im.sz) l im.freelist im.pgdir m' d')
    (hend : pageUp im.sz + l.length ≤ 160)
    (hgap : ∀ q, pageUp im.sz ≤ q → q < pageUp im.sz + l.length → im.pgdir.pte q = none) :
    ImageOwn L m₀ { im with
      freelist := m'
      pgdir := d'
      sz := newsz
      trace := im.trace ++ l.map .alloc } := by
  refine ⟨hmap.space h.space hend h.valid, fun f hf ↦ ?_, fun f ↦ ?_⟩
  · refine h.valid f ?_
    rw [hmap.taken]
    exact List.mem_append_right _ hf
  · have h1 := h.count f
    have h2 := hmap.count hend hgap f
    simp only
    rw [hmap.frame, tables_congr hmap.tab]
    omega

theorem ImagePages.grown {m₁ m' : Freelist} {im : Image} {d' : PageDir} {l₀ l : List ℕ} {newsz : ℕ}
    (h : ImagePages m₁ im l₀) (hmap : Mapped (pageUp im.sz) l im.freelist im.pgdir m' d')
    (hlen : pageUp im.sz + l.length = pageUp newsz) :
    ImagePages m₁ { im with
      freelist := m'
      pgdir := d'
      sz := newsz
      trace := im.trace ++ l.map .alloc } (l₀ ++ l) := by
  have hl₀ := h.length
  refine ⟨?_, ?_, fun v hv ↦ ?_, fun r ↦ ?_⟩
  · rw [h.taken, hmap.taken, List.append_assoc]
  · rw [List.length_append, hl₀, hlen]
  · -- old pages, new pages, and none behind them
    simp only
    rw [hmap.pte]
    by_cases hin : pageUp im.sz ≤ v ∧ v < pageUp im.sz + l.length
    · rw [if_pos hin, List.getElem?_append_right (by omega), hl₀]
    · rw [if_neg hin, h.pte v hv]
      by_cases hlow : v < pageUp im.sz
      · rw [List.getElem?_append_left (by omega)]
      · rw [List.getElem?_eq_none (by omega),
          List.getElem?_eq_none (by rw [List.length_append]; omega)]
  · simp [h.trace r]

/-- A request for which the frames do not suffice changes the order of the free list. -/
theorem ImageOwn.full {m₀ m' : Freelist} {im : Image} {d' : PageDir} (h : ImageOwn L m₀ im)
    (sz : ℕ) (trace : List Event) (hframe : d'.frame = im.pgdir.frame)
    (htab : d'.tab = im.pgdir.tab) (hpte : d'.pte = im.pgdir.pte)
    (hcount : ∀ f, m'.count f = im.freelist.count f) : ImageOwn L m₀ ⟨m', d', sz, trace⟩ := by
  refine ⟨?_, fun f hf ↦ ?_, fun f ↦ ?_⟩
  · refine h.space.of_pte hframe htab (fun v _ ↦ by rw [hpte]) (fun v hv p hp ↦ ?_)
    exact h.space.user v hv p (by rwa [hpte] at hp)
  · refine h.valid f ?_
    rw [← List.count_pos_iff, ← hcount]
    exact List.count_pos_iff.mpr hf
  · have h1 := h.count f
    have h2 := hcount f
    have h3 : held (range 160) d'.frames f = held (range 160) im.pgdir.frames f :=
      held_congr (fun q _ ↦ frames_congr (by rw [hpte])) f
    simp only
    rw [hframe, tables_congr htab, h3]
    omega

/-- One request for memory: refused, and then `exec` gives up, or granted. -/
theorem grow_outcome (newsz : ℕ) {shmtop : ℕ} {m₀ m₁ : Freelist} {im : Image}
    (h : ImageOk L shmtop m₀ m₁ im) (htop : shmtop ≤ usertop) :
    ∃ im', ∃ l : List ℕ, im.grow L shmtop newsz = .ok im' ∧ ImageOwn L m₀ im' ∧
      im'.trace = im.trace ++ l.map .alloc ∧
      ((im'.sz = 0 ∧ ¬Fits shmtop m₁ im.sz newsz ∧ im'.pgdir.pte = im.pgdir.pte) ∨
        (im'.sz = max im.sz newsz ∧ Fits shmtop m₁ im.sz newsz ∧ ImageOk L shmtop m₀ m₁ im')) := by
  obtain ⟨l₀, hpages⟩ := h.pages
  have hlen₁ : m₁.length = pageUp im.sz + im.freelist.length := by
    rw [hpages.taken, List.length_append, hpages.length]
  have hle160 : ∀ v, v < pageUp newsz → newsz ≤ shmtop → v < 160 := fun v h1 h2 ↦
    Nat.lt_of_lt_of_le h1 (pageUp_le (h2.trans htop))
  obtain ⟨g, hg, hout⟩ := allocuvm_outcome newsz h.own.space h.own.valid htop
    (fun v h1 h2 h3 ↦ hpages.gap h1 (hle160 v h2 h3))
  have hgrow : im.grow L shmtop newsz = .ok { im with
      freelist := g.freelist
      pgdir := g.pgdir
      sz := g.ret
      trace := im.trace ++ g.frames.map .alloc } := by
    rw [Image.grow, hg]
    rfl
  refine ⟨_, g.frames, hgrow, ?_⟩
  cases hout with
  | high hlt =>
    refine ⟨⟨h.own.space, h.own.valid, h.own.count⟩, rfl, .inl ⟨rfl, fun hfits ↦ ?_, rfl⟩⟩
    have := hfits.1
    omega
  | shrink hle hlt =>
    have hmax : max im.sz newsz = im.sz := Nat.max_eq_left hlt.le
    refine ⟨⟨h.own.space, h.own.valid, h.own.count⟩, rfl, .inr ⟨hmax.symm, ⟨hle, ?_, ?_⟩, ?_⟩⟩
    · omega
    · rw [hmax]
      omega
    · exact ⟨⟨h.own.space, h.own.valid, h.own.count⟩, h.sz_le, l₀, hpages.taken, hpages.length,
        hpages.pte, fun r ↦ by simpa using hpages.trace r⟩
  | @grown m' d' l hle hge hmap hlen =>
    have hmax : max im.sz newsz = newsz := Nat.max_eq_right hge
    have hend : pageUp im.sz + l.length = pageUp newsz := by
      have hmono := pageUp_mono hge
      omega
    have h160 := pageUp_le (hle.trans htop)
    have hown := h.own.grown newsz hmap (by omega) fun q h1 h2 ↦ hpages.gap h1 (by omega)
    refine ⟨hown, rfl, ?_⟩
    -- `exec` takes the size 0 for a failure even if it was granted
    by_cases hzero : newsz = 0
    · refine .inl ⟨hzero, fun hfits ↦ ?_, funext fun v ↦ ?_⟩
      · have := hfits.2.1
        omega
      · have hnil : l.length = 0 := by
          rw [hlen, hzero]
          exact Nat.sub_eq_zero_of_le (Nat.zero_le _)
        exact (hmap.pte v).trans (if_neg (by omega))
    · have hpages' := hpages.grown hmap hend
      refine .inr ⟨hmax.symm, ⟨hle, by omega, ?_⟩, hown, hle, l₀ ++ l, hpages'⟩
      rw [hmax, hpages'.taken, List.length_append, hpages'.length]
      exact Nat.le_add_right _ _
  | @full m' d' l hle hlt hlen hframe htab hpte hcount =>
    refine ⟨h.own.full _ _ hframe htab hpte hcount, rfl, .inl ⟨rfl, fun hfits ↦ ?_, hpte⟩⟩
    have h2 := hfits.2.2
    rw [Nat.max_eq_right hlt.le] at h2
    omega

/-! ## The memory of a finished or abandoned image -/

theorem ImageOwn.setTrace {m₀ : Freelist} {im : Image} (h : ImageOwn L m₀ im) (tr : List Event) :
    ImageOwn L m₀ { im with trace := tr } := ⟨h.space, h.valid, h.count⟩

/-- Stores do not change which frames belong to the image. -/
theorem ImageOk.addStores {shmtop : ℕ} {m₀ m₁ : Freelist} {im : Image}
    (h : ImageOk L shmtop m₀ m₁ im) {l : List Event} (hl : ∀ r, .alloc r ∉ l) :
    ImageOk L shmtop m₀ m₁ { im with trace := im.trace ++ l } := by
  obtain ⟨l₀, hpages⟩ := h.pages
  refine ⟨h.own.setTrace _, h.sz_le, l₀, hpages.taken, hpages.length, hpages.pte, fun r ↦ ?_⟩
  simp only [List.mem_append, hl r, or_false]
  exact hpages.trace r

theorem loadPages_alloc {d : PageDir} {f : File} {addr offset sz n i : ℕ} {l : List Event}
    {ok : Bool} (h : loadPages d f addr offset sz n i = .ok (l, ok)) (r : ℕ) : .alloc r ∉ l := by
  -- on the rounds left: each one stores at most one block
  induction n generalizing i l ok with
  | zero =>
    obtain ⟨rfl, -⟩ := Prod.mk.inj (Except.ok.inj h)
    simp
  | succ n ih =>
    rw [loadPages] at h
    split at h
    · cases h
    · simp only at h
      split at h
      · obtain ⟨rfl, -⟩ := Prod.mk.inj (Except.ok.inj h)
        simp
      · split at h
        · obtain ⟨⟨l', ok'⟩, hl', h⟩ := bind_eq_ok h
          obtain ⟨rfl, -⟩ := Prod.mk.inj (Except.ok.inj h)
          simpa using ih hl'
        · obtain ⟨rfl, -⟩ := Prod.mk.inj (Except.ok.inj h)
          simp

theorem loaduvm_alloc {d : PageDir} {f : File} {addr offset sz : ℕ} {l : List Event} {ok : Bool}
    (h : loaduvm d f addr offset sz = .ok (l, ok)) (r : ℕ) : .alloc r ∉ l := by
  rw [loaduvm] at h
  split at h
  · cases h
  · exact loadPages_alloc h r

variable {shmtop : ℕ} {m₀ m₁ : Freelist}

theorem loadSegment_memory {f : File} {ph : Proghdr} {im im' : Image} {b : Bool}
    (h : ImageOk L shmtop m₀ m₁ im) (htop : shmtop ≤ usertop)
    (hload : loadSegment L shmtop f ph im = .ok (im', b)) :
    ImageOwn L m₀ im' ∧ (b = true → ImageOk L shmtop m₀ m₁ im') := by
  rw [loadSegment] at hload
  split at hload
  · obtain ⟨rfl, rfl⟩ := Prod.mk.inj (Except.ok.inj hload)
    exact ⟨h.own, by simp⟩
  · obtain ⟨im₁, l, hgrow, hown, -, hcases⟩ :=
      grow_outcome ((ph.va + ph.memsz) % 2 ^ 32) h htop
    rw [hgrow, ok_bind] at hload
    split at hload
    · obtain ⟨rfl, rfl⟩ := Prod.mk.inj (Except.ok.inj hload)
      exact ⟨hown, by simp⟩
    · rename_i hne
      obtain ⟨⟨l', ok⟩, hl', hload⟩ := bind_eq_ok hload
      obtain ⟨rfl, rfl⟩ := Prod.mk.inj (Except.ok.inj hload)
      refine ⟨hown.setTrace _, fun _ ↦ ?_⟩
      rcases hcases with ⟨hzero, -⟩ | ⟨-, -, hok⟩
      · exact absurd hzero hne
      · exact hok.addStores (loaduvm_alloc hl')

theorem loadSegments_memory {f : File} {n off : ℕ} {im im' : Image} {b : Bool}
    (h : ImageOk L shmtop m₀ m₁ im) (htop : shmtop ≤ usertop)
    (hload : loadSegments L shmtop f n off im = .ok (im', b)) :
    ImageOwn L m₀ im' ∧ (b = true → ImageOk L shmtop m₀ m₁ im') := by
  induction n generalizing off im with
  | zero =>
    obtain ⟨rfl, rfl⟩ := Prod.mk.inj (Except.ok.inj hload)
    exact ⟨h.own, fun _ ↦ h⟩
  | succ n ih =>
    rw [loadSegments] at hload
    split at hload
    · obtain ⟨rfl, rfl⟩ := Prod.mk.inj (Except.ok.inj hload)
      exact ⟨h.own, by simp⟩
    split at hload
    · exact ih h hload
    obtain ⟨⟨im₁, b₁⟩, hseg, hload⟩ := bind_eq_ok hload
    obtain ⟨hown, hok⟩ := loadSegment_memory h htop hseg
    cases b₁ with
    | false =>
      obtain ⟨rfl, rfl⟩ := Prod.mk.inj (Except.ok.inj hload)
      exact ⟨hown, by simp⟩
    | true => exact ih (hok rfl) hload

theorem pageUp_pgRoundUp (a : ℕ) : pageUp (pgRoundUp a) = pageUp a := by
  simp only [pageUp, pgRoundUp, pgsize]
  omega

/-- Rounding the size up to a page changes nothing else. -/
theorem ImageOk.round {im : Image} (h : ImageOk L shmtop m₀ m₁ im) (halign : shmtop % pgsize = 0) :
    ImageOk L shmtop m₀ m₁ { im with sz := pgRoundUp im.sz } := by
  obtain ⟨l, hpages⟩ := h.pages
  refine ⟨⟨h.own.space, h.own.valid, h.own.count⟩, ?_, l, hpages.taken, ?_, hpages.pte,
    hpages.trace⟩
  · have hle := h.sz_le
    simp only [pgRoundUp, pageUp, pgsize] at *
    omega
  · change l.length = pageUp (pgRoundUp im.sz)
    rw [pageUp_pgRoundUp, hpages.length]

theorem buildImage_memory {f : File} {argv : List Arg} {m₁ : Freelist} {d : PageDir} {im : Image}
    {b : Bool} (h : ImageOk L shmtop m₀ m₁ ⟨m₁, d, 0, []⟩) (htop : shmtop ≤ usertop)
    (halign : shmtop % pgsize = 0) (hbuild : buildImage L shmtop f argv m₁ d = .ok (im, b)) :
    ImageOwn L m₀ im ∧ (b = true → ImageOk L shmtop m₀ m₁ im ∧ 0 < im.sz) := by
  rw [buildImage] at hbuild
  obtain ⟨⟨im₁, b₁⟩, hload, hbuild⟩ := bind_eq_ok hbuild
  obtain ⟨hown, hok⟩ := loadSegments_memory h htop hload
  cases b₁ with
  | false =>
    obtain ⟨rfl, rfl⟩ := Prod.mk.inj (Except.ok.inj hbuild)
    exact ⟨hown, by simp⟩
  | true =>
    obtain ⟨im₂, l, hgrow, hown₂, -, hcases⟩ :=
      grow_outcome ((pgRoundUp im₁.sz + pgsize) % 2 ^ 32) ((hok rfl).round halign) htop
    simp only [hgrow, ok_bind] at hbuild
    split at hbuild
    · obtain ⟨rfl, rfl⟩ := Prod.mk.inj (Except.ok.inj hbuild)
      exact ⟨hown₂, by simp⟩
    · rename_i hne
      obtain ⟨ok, -, hbuild⟩ := bind_eq_ok hbuild
      obtain ⟨rfl, rfl⟩ := Prod.mk.inj (Except.ok.inj hbuild)
      refine ⟨hown₂, fun _ ↦ ?_⟩
      rcases hcases with ⟨hzero, -⟩ | ⟨-, -, hok₂⟩
      · exact absurd hzero hne
      · exact ⟨hok₂, Nat.pos_of_ne_zero hne⟩

end CS537.Shm
