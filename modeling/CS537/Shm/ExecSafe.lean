import CS537.Shm.Success

/-!
# `exec` on untrusted files

`allocuvm` is asked for `va + memsz`, `loaduvm` writes from `va` on. Nothing relates the two: a
segment may start in the kernel and end, after the sum has wrapped, at the first pages.
`HeadersSafe` says when this does not happen, header by header, and `exec` is safe exactly then.
-/

open Finset Function Holding

namespace CS537.Shm

variable {L : Link}

/-! ## Traces -/

/-- Every block of bytes goes to a frame that was taken before; `taken` are those taken so far. -/
def Contained : List ℕ → List Event → Prop
  | _, [] => True
  | taken, .alloc r :: tr => Contained (r :: taken) tr
  | taken, .store pa _ len :: tr => (0 < len → pa ∈ taken) ∧ Contained taken tr

/-- Only which frames have been taken matters. -/
theorem Contained.congr {taken taken' : List ℕ} (h : ∀ r, r ∈ taken ↔ r ∈ taken')
    (tr : List Event) : Contained taken tr ↔ Contained taken' tr := by
  induction tr generalizing taken taken' with
  | nil => exact Iff.rfl
  | cons e tr ih =>
    cases e with
    | alloc r => exact ih fun x ↦ by rw [List.mem_cons, List.mem_cons, h]
    | store pa off len => exact and_congr (imp_congr_right fun _ ↦ h pa) (ih h)

theorem contained_append {taken : List ℕ} {tr tr' : List Event} {all : List ℕ}
    (h : ∀ r, r ∈ all ↔ r ∈ taken ∨ .alloc r ∈ tr) :
    Contained taken (tr ++ tr') ↔ Contained taken tr ∧ Contained all tr' := by
  induction tr generalizing taken with
  | nil =>
    rw [List.nil_append]
    rw [Contained, true_and]
    exact Contained.congr (fun r ↦ by simp [h]) tr'
  | cons e tr ih =>
    cases e with
    | alloc r => exact ih fun x ↦ by simp [h, or_assoc, or_left_comm, eq_comm]
    | store pa off len =>
      rw [List.cons_append, Contained, Contained, ih fun x ↦ by simp [h], and_assoc]

theorem Contained.of_prefix {taken : List ℕ} {tr tr' : List Event} (h : Contained taken tr')
    (hpre : tr <+: tr') : Contained taken tr := by
  obtain ⟨rest, rfl⟩ := hpre
  induction tr generalizing taken with
  | nil => trivial
  | cons e tr ih =>
    cases e with
    | alloc r => exact ih h
    | store pa off len => exact ⟨h.1, ih h.2⟩

theorem contained_allocs (taken l : List ℕ) : Contained taken (l.map .alloc) := by
  induction l generalizing taken with
  | nil => trivial
  | cons r l ih => exact ih (r :: taken)

/-! ## The argument strings -/

/-- Below 16 MB there are page tables. -/
theorem Space.isSome_tab_low {d : PageDir} (h : Space L d) {v : ℕ} (hv : v < 4096) :
    (d.tab (v / 1024)).isSome := (h.tab _).mpr (.inl (by omega))

theorem uva2ka_ok {d : PageDir} {v : ℕ} (h : (d.tab (v / 1024)).isSome) :
    ∃ o, uva2ka d v = .ok o := by
  rw [uva2ka, lookup_of_tab h]
  cases d.pte v with
  | none => exact ⟨none, rfl⟩
  | some p => exact ⟨_, rfl⟩

theorem copyoutPages_ok {d : PageDir} (h : Space L d) {n v : ℕ} (hv : v + n ≤ 4096) :
    ∃ b, copyoutPages d n v = .ok b := by
  induction n generalizing v with
  | zero => exact ⟨true, rfl⟩
  | succ n ih =>
    obtain ⟨o, ho⟩ := uva2ka_ok (h.isSome_tab_low (v := v) (by omega))
    rw [copyoutPages, ho, ok_bind]
    cases o with
    | none => exact ⟨false, rfl⟩
    | some f =>
      have hmod : (v + 1) % 2 ^ 20 = v + 1 := Nat.mod_eq_of_lt (by omega)
      simp only
      rw [hmod]
      exact ih (by omega)

/-- The device range is not a user range. -/
theorem copyoutPages_device {d : PageDir} (h : Space L d) {n v : ℕ} (hn : 0 < n)
    (h1 : 0xFE000 ≤ v) (h2 : v < 0x100000) : copyoutPages d n v = .ok false := by
  obtain ⟨n, rfl⟩ := Nat.exists_eq_add_of_lt hn
  have htab : (d.tab (v / 1024)).isSome := (h.tab _).mpr (.inr (by omega))
  obtain ⟨w, hpte⟩ := kernelPte_high L (q := v) (by omega) (.inr ⟨h1, h2⟩)
  rw [Nat.zero_add, copyoutPages, uva2ka, lookup_of_tab htab, h.high v (by omega), hpte]
  rfl

/-- A block below `sp` either lies in user memory or has wrapped into the device range. -/
theorem copyout_below {d : PageDir} (h : Space L d) {sp n : ℕ} (hsp : sp ≤ usertop)
    (hn : n ≤ usertop) (hpos : 0 < n) {a : ℕ} (ha : a ≤ sub32 sp n) (ha' : sub32 sp n < a + 4) :
    (∃ b, copyout d a n = .ok b) ∧ (usertop < a → copyout d a n = .ok false) := by
  have hcopy : copyout d a n = copyoutPages d (pageUp (a % pgsize + n)) (a / pgsize) :=
    if_neg (by omega)
  rw [hcopy]
  -- if `sp - n` wraps, the block starts in the device range
  by_cases hle : n ≤ sp
  · rw [sub32_of_le hle (by simp only [usertop] at *; omega)] at ha ha'
    refine ⟨copyoutPages_ok h ?_, fun hlt ↦ ?_⟩
    · simp only [pageUp, pgsize, usertop] at *
      omega
    · omega
  · rw [sub32, Nat.mod_eq_of_lt (by omega)] at ha ha'
    have hfalse := copyoutPages_device h (n := pageUp (a % pgsize + n)) (v := a / pgsize)
      (by simp only [pageUp, pgsize] at *; omega)
      (by simp only [pgsize, usertop] at *; omega) (by simp only [pgsize] at *; omega)
    exact ⟨⟨false, hfalse⟩, fun _ ↦ hfalse⟩

/-- Pushing the argument strings does not panic, and stays in user memory. -/
theorem pushArgs_ok {d : PageDir} (h : Space L d) (argv : List Arg) {argc sp : ℕ}
    (hsp : sp ≤ usertop) (hargc : argc ≤ maxarg) :
    ∃ o, pushArgs d argv argc sp = .ok o ∧
      ∀ sp', o = some sp' → sp' ≤ usertop ∧ argc + argv.length ≤ maxarg := by
  induction argv generalizing argc sp with
  | nil =>
    refine ⟨some sp, rfl, fun sp' h ↦ ?_⟩
    obtain rfl := Option.some.inj h
    exact ⟨hsp, by simpa using hargc⟩
  | cons a argv ih =>
    rw [pushArgs]
    by_cases hmax : maxarg ≤ argc
    · rw [if_pos hmax]
      exact ⟨none, rfl, by simp⟩
    rw [if_neg hmax]
    obtain ⟨⟨b, hb⟩, hhigh⟩ := copyout_below h hsp (n := a + 1) (by have := a.isLt; omega)
      (Nat.succ_pos _) (Nat.div_mul_le_self _ 4) (a := sub32 sp (a + 1) / 4 * 4) (by omega)
    simp only [hb, ok_bind]
    cases b with
    | false => exact ⟨none, rfl, by simp⟩
    | true =>
      -- a block that could be copied lies in user memory, so `sp` has not wrapped
      have hle : sub32 sp (a + 1) / 4 * 4 ≤ usertop := by
        by_contra hlt
        rw [hhigh (by omega)] at hb
        cases hb
      have hnext : argc + 1 ≤ maxarg := by omega
      obtain ⟨o, ho, hout⟩ := ih hle hnext
      refine ⟨o, ho, fun sp' h ↦ ?_⟩
      have := hout sp' h
      rw [List.length_cons]
      omega

theorem pushAll_ok {d : PageDir} (h : Space L d) (argv : List Arg) {sz : ℕ} (hsz : sz ≤ usertop) :
    ∃ b, pushAll d argv sz = .ok b := by
  have hzero : 0 ≤ maxarg := by decide
  obtain ⟨o, ho, hout⟩ := pushArgs_ok h argv hsz hzero
  rw [pushAll, ho, ok_bind]
  cases o with
  | none => exact ⟨false, rfl⟩
  | some sp =>
    obtain ⟨hsp, hargc⟩ := hout sp rfl
    have hn : (3 + argv.length + 1) * 4 ≤ usertop := by
      simp only [maxarg, usertop] at *
      omega
    exact (copyout_below h hsp hn (by omega) le_rfl (by omega)).1

/-! ## `loaduvm` -/

theorem readi_cases (f : File) (off n : ℕ) (hn : 0 < n) (hn' : n ≤ pgsize) (hoff : off < 2 ^ 32) :
    (f.size < off ∧ readi f.size off n = none) ∨
    (off ≤ f.size ∧ f.size < off + n ∧ readi f.size off n = some (f.size - off)) ∨
    (off + n ≤ f.size ∧ readi f.size off n = some n) := by
  have hsize : f.size ≤ maxFileSize := f.size_le
  simp only [maxFileSize, pgsize] at hsize hn'
  by_cases hlt : f.size < off
  · exact .inl ⟨hlt, if_pos (.inl hlt)⟩
  have hmod : (off + n) % 2 ^ 32 = off + n := Nat.mod_eq_of_lt (by omega)
  rw [readi, hmod, if_neg (by omega)]
  by_cases hend : f.size < off + n
  · exact .inr (.inl ⟨by omega, hend, if_pos hend⟩)
  · exact .inr (.inr ⟨by omega, if_neg hend⟩)

/-- The page that receives the bytes `j * PGSIZE`, … of a segment. -/
def Proghdr.page (ph : Proghdr) (j : ℕ) : ℕ := (ph.va + j * pgsize) % 2 ^ 32 / pgsize

/-- The file holds the whole segment. -/
def Proghdr.Complete (ph : Proghdr) (f : File) : Prop :=
  ph.filesz = 0 ∨ ph.offset + ph.filesz ≤ f.size

/-- One round of `loaduvm`: where the round is reached there is a page table, and if there is a byte
to store, the page is `good`. The first round is always reached, a later one if the file goes so
far. -/
structure Proghdr.RoundSafe (ph : Proghdr) (f : File) (good : ℕ → Prop) (j : ℕ) : Prop where
  table : j = 0 ∨ ph.offset + j * pgsize ≤ f.size → KernelTab (ph.page j / 1024)
  page : ph.offset + j * pgsize < f.size → good (ph.page j)

/-- An address space as `loaduvm` sees it: which pages have a page table, and which of them lead to
frames that have been taken. -/
structure Loadable (d : PageDir) (taken : List ℕ) (good : ℕ → Prop) : Prop where
  tab : ∀ x, (d.tab x).isSome ↔ KernelTab x
  frame : ∀ v, v < 2 ^ 20 → KernelTab (v / 1024) →
    (((d.pte v).map Pte.pa).getD 0 ∈ taken ↔ good v)

theorem Proghdr.page_lt (ph : Proghdr) (j : ℕ) : ph.page j < 2 ^ 20 := by
  rw [Proghdr.page]
  simp only [pgsize]
  omega

/-- Once the file has ended in round `j`, the later rounds are neither reached nor store a byte. -/
theorem Proghdr.roundSafe_of_end {ph : Proghdr} {f : File} {good : ℕ → Prop} {i j : ℕ}
    (hend : f.size < ph.offset + j * pgsize + min (ph.filesz - j * pgsize) pgsize) (hij : j < i) :
    ph.RoundSafe f good i := by
  have hpast : f.size < ph.offset + i * pgsize := by
    simp only [pgsize] at *
    omega
  exact ⟨fun h ↦ absurd h (by omega), fun h ↦ absurd h (by omega)⟩

theorem forall_rounds_succ {P : ℕ → Prop} {n j : ℕ} :
    (∀ i, j ≤ i → i < j + (n + 1) → P i) ↔ P j ∧ ∀ i, j + 1 ≤ i → i < j + 1 + n → P i := by
  constructor
  · intro h
    exact ⟨h j le_rfl (by omega), fun i h1 h2 ↦ h i (by omega) (by omega)⟩
  · rintro ⟨hj, hrest⟩ i h1 h2
    rcases Nat.eq_or_lt_of_le h1 with rfl | h1
    · exact hj
    · exact hrest i h1 (by omega)

/-- One round of the loop of `loaduvm` for a page with a page table: it reads to the end of the file
and is the last one, or it reads what the page takes. -/
theorem loadPages_round {d : PageDir} {taken : List ℕ} {good : ℕ → Prop}
    (hd : Loadable d taken good) {f : File} {ph : Proghdr} {n j : ℕ} (hoff : ph.offset < 2 ^ 32)
    (hrest : j * pgsize < ph.filesz)
    (hj : j = 0 ∨ ph.offset + j * pgsize ≤ f.size) (htab : KernelTab (ph.page j / 1024)) :
    (f.size < ph.offset + j * pgsize + min (ph.filesz - j * pgsize) pgsize ∧
      ∃ l, loadPages d f ph.va ph.offset ph.filesz (n + 1) (j * pgsize) = .ok (l, false) ∧
        (Contained taken l ↔ ph.RoundSafe f good j)) ∨
    (ph.offset + j * pgsize + min (ph.filesz - j * pgsize) pgsize ≤ f.size ∧
      ∃ pa off len, 0 < len ∧ (pa ∈ taken ↔ ph.RoundSafe f good j) ∧
        loadPages d f ph.va ph.offset ph.filesz (n + 1) (j * pgsize) = do
          let (l, b) ← loadPages d f ph.va ph.offset ph.filesz n ((j + 1) * pgsize)
          pure (.store pa off len :: l, b)) := by
  have hsize : f.size ≤ maxFileSize := f.size_le
  have hlookup : lookup d ((ph.va + j * pgsize) % 2 ^ 32 / pgsize) = some (d.pte (ph.page j)) :=
    lookup_of_tab ((hd.tab _).mpr htab)
  have hframe := hd.frame _ (ph.page_lt j) htab
  rw [loadPages, hlookup]
  simp only
  generalize ((d.pte (ph.page j)).map Pte.pa).getD 0 = pa at hframe ⊢
  have hround : ph.RoundSafe f good j ↔ (ph.offset + j * pgsize < f.size → pa ∈ taken) :=
    ⟨fun h hlt ↦ hframe.mpr (h.page hlt), fun h ↦ ⟨fun _ ↦ htab, fun hlt ↦ hframe.mp (h hlt)⟩⟩
  rw [hround]
  have hmin : 0 < min (ph.filesz - j * pgsize) pgsize := by
    simp only [pgsize] at *
    omega
  have hmod : ph.offset + j * pgsize ≤ f.size →
      (ph.offset + j * pgsize) % 2 ^ 32 = ph.offset + j * pgsize := by
    intro hle
    simp only [maxFileSize, pgsize] at *
    omega
  rcases readi_cases f _ _ hmin (Nat.min_le_right _ _) (Nat.mod_lt (ph.offset + j * pgsize)
    (by decide : 0 < 2 ^ 32)) with ⟨hlt, hread⟩ | ⟨hle, hend, hread⟩ | ⟨hend, hread⟩
  · -- nothing is read
    have hbig : f.size < ph.offset + j * pgsize := by
      simp only [pgsize] at *
      omega
    rw [hread]
    exact .inl ⟨by omega, [], rfl, iff_of_true trivial fun h ↦ absurd h (by omega)⟩
  · -- the file ends in this page
    have hin : ph.offset + j * pgsize ≤ f.size := by
      simp only [pgsize] at *
      omega
    rw [hmod hin] at hread hend hle ⊢
    rw [hread]
    simp only
    rw [if_neg (by omega)]
    refine .inl ⟨hend, _, rfl, fun h hlt ↦ h.1 (by omega), fun h ↦ ⟨fun hpos ↦ ?_, trivial⟩⟩
    exact h (by omega)
  · -- the page is read in full
    have hin : ph.offset + j * pgsize ≤ f.size := by
      simp only [pgsize] at *
      omega
    rw [hmod hin] at hread hend ⊢
    rw [hread]
    simp only [if_true]
    refine .inr ⟨hend, pa, ph.offset + j * pgsize, _, hmin, ⟨fun h _ ↦ h, fun h ↦ h (by omega)⟩, ?_⟩
    rw [Nat.succ_mul]

/-- The loop of `loaduvm` from round `j` on: it does not panic and stores only where it may, exactly
if all rounds are safe. -/
theorem loadPages_iff {d : PageDir} {taken : List ℕ} {good : ℕ → Prop} (hd : Loadable d taken good)
    {f : File} {ph : Proghdr} (hoff : ph.offset < 2 ^ 32) {n j : ℕ}
    (hn : j + n = pageUp ph.filesz ∨ n = 0) (hj : n = 0 ∨ j = 0 ∨ ph.offset + j * pgsize ≤ f.size) :
    ((∃ l b, loadPages d f ph.va ph.offset ph.filesz n (j * pgsize) = .ok (l, b) ∧
        Contained taken l) ↔ ∀ i, j ≤ i → i < j + n → ph.RoundSafe f good i) ∧
      ∀ l b, loadPages d f ph.va ph.offset ph.filesz n (j * pgsize) = .ok (l, b) →
        (b = true ↔ n = 0 ∨ ph.offset + ph.filesz ≤ f.size) := by
  induction n generalizing j with
  | zero =>
    refine ⟨⟨fun _ i h1 h2 ↦ ?_, fun _ ↦ ⟨[], true, rfl, trivial⟩⟩, fun l b h ↦ ?_⟩
    · omega
    obtain ⟨rfl, rfl⟩ := Prod.mk.inj (Except.ok.inj h)
    simp
  | succ n ih =>
    have hn' : j + (n + 1) = pageUp ph.filesz := hn.resolve_right (by omega)
    have hj' := hj.resolve_left (by omega)
    have hrest : j * pgsize < ph.filesz := by
      simp only [pageUp, pgsize] at *
      omega
    -- without a page table `loaduvm` panics in this round
    by_cases htab : KernelTab (ph.page j / 1024)
    swap
    · have hnone : lookup d ((ph.va + j * pgsize) % 2 ^ 32 / pgsize) = none := by
        rw [lookup_eq_none_iff, ← Option.not_isSome_iff_eq_none, hd.tab]
        exact htab
      rw [loadPages, hnone]
      refine ⟨⟨fun h ↦ ?_, fun h ↦ ?_⟩, fun _ _ h ↦ by cases h⟩
      · obtain ⟨_, _, h, -⟩ := h
        cases h
      · exact absurd ((h j le_rfl (by omega)).table hj') htab
    rw [forall_rounds_succ]
    rcases loadPages_round hd hoff (n := n) hrest hj' htab with
      ⟨hend, l, hl, hsafe⟩ | ⟨hend, pa, off, len, hlen, hsafe, hl⟩
    · -- the later rounds need more of the file than this one
      have hlater : ∀ i, j + 1 ≤ i → i < j + 1 + n → ph.RoundSafe f good i :=
        fun i h1 _ ↦ Proghdr.roundSafe_of_end hend h1
      rw [hl]
      refine ⟨⟨?_, fun h ↦ ⟨l, false, rfl, hsafe.mpr h.1⟩⟩, fun l' b' h' ↦ ?_⟩
      · rintro ⟨l', b', h', hcont⟩
        obtain ⟨rfl, rfl⟩ := Prod.mk.inj (Except.ok.inj h')
        exact ⟨hsafe.mp hcont, hlater⟩
      · obtain ⟨rfl, rfl⟩ := Prod.mk.inj (Except.ok.inj h')
        simp only [Bool.false_eq_true, false_iff]
        omega
    · have hpage : min (ph.filesz - j * pgsize) pgsize = ph.filesz - j * pgsize ∧
          j + 1 = pageUp ph.filesz ∨
          min (ph.filesz - j * pgsize) pgsize = pgsize ∧ (j + 1) * pgsize ≤ ph.filesz := by
        simp only [pageUp, pgsize] at *
        omega
      obtain ⟨hiff, hret⟩ := ih (j := j + 1) (by omega) (by
        simp only [pageUp, pgsize] at *
        omega)
      rw [hl, ← hiff, ← hsafe]
      constructor
      · constructor
        · rintro ⟨l, b, h, hcont⟩
          obtain ⟨⟨l', b'⟩, hl', h⟩ := bind_eq_ok h
          obtain ⟨rfl, rfl⟩ := Prod.mk.inj (Except.ok.inj h)
          exact ⟨hcont.1 hlen, l', b', hl', hcont.2⟩
        · rintro ⟨hpa, l, b, hl, hcont⟩
          rw [hl, ok_bind]
          exact ⟨_, b, rfl, fun _ ↦ hpa, hcont⟩
      · intro l b h
        obtain ⟨⟨l', b'⟩, hl', h⟩ := bind_eq_ok h
        obtain ⟨rfl, rfl⟩ := Prod.mk.inj (Except.ok.inj h)
        rw [hret l' b' hl']
        simp only [pageUp, pgsize] at *
        omega

/-- The pages of a new image to which a segment may go: its own pages, and the kernel's pages that
stand for its frames. -/
def OwnPage (frames : Freelist) (sz v : ℕ) : Prop :=
  v < pageUp sz ∨ v * pgsize ∈ frames.take (pageUp sz)

/-- A segment that `loaduvm` may load into an image of the size `sz`. -/
structure Proghdr.Safe (ph : Proghdr) (f : File) (frames : Freelist) (sz : ℕ) : Prop where
  aligned : ph.va % pgsize = 0
  round : ∀ j, j * pgsize < ph.filesz → ph.RoundSafe f (OwnPage frames sz) j

theorem ImagePages.eq_take {m₁ : Freelist} {im : Image} {l : List ℕ} (h : ImagePages m₁ im l) :
    l = m₁.take (pageUp im.sz) := by
  rw [h.taken, ← h.length, List.take_left]

theorem ImagePages.loadable {m₁ : Freelist} {im : Image} {l : List ℕ} (h : ImagePages m₁ im l)
    (hspace : Space L im.pgdir) (hm : ∀ f ∈ m₁, L.Valid f) (hsz : im.sz ≤ usertop) :
    Loadable im.pgdir l (OwnPage m₁ im.sz) := by
  have hl : ∀ f ∈ l, L.Valid f := fun f hf ↦ hm f (by rw [h.taken]; simp [hf])
  have h160 := pageUp_le hsz
  have hzero : 0 ∉ l := fun h0 ↦ (hl 0 h0).ne_zero rfl
  refine ⟨hspace.tab, fun v hv htab ↦ ?_⟩
  rw [OwnPage, ← h.eq_take]
  -- a user page leads to its own frame, a page of the kernel to the frame at its address
  by_cases huser : v < 160
  · have hpage : v * pgsize ∉ l := by
      intro hin
      obtain ⟨-, h1, -⟩ := hl _ hin
      have h2 := L.text_lt
      have h3 := L.data_le
      simp only [pgsize] at h1
      omega
    rw [h.pte v huser]
    by_cases hlow : v < l.length
    · rw [List.getElem?_eq_getElem hlow]
      constructor
      · intro _
        exact .inl (h.length ▸ hlow)
      · intro _
        exact List.getElem_mem hlow
    · rw [List.getElem?_eq_none (by omega)]
      have hup : ¬v < pageUp im.sz := h.length ▸ hlow
      constructor
      · intro h0
        exact absurd h0 hzero
      · rintro (hlow | hframe)
        · exact absurd hlow hup
        · exact absurd hframe hpage
  · rw [hspace.high v (by omega), or_iff_right (by omega)]
    by_cases hmap : v < 4096 ∨ 0xFE000 ≤ v ∧ v < 0x100000
    · obtain ⟨w, hpte⟩ := kernelPte_high L (by omega) hmap
      rw [hpte]
      exact Iff.rfl
    · rw [kernelPte_gap L (by omega) (by omega)]
      constructor
      · intro h0
        exact absurd h0 hzero
      · intro hin
        obtain ⟨-, -, h1⟩ := hl _ hin
        simp only [pgsize, phystop] at h1
        omega

theorem loaduvm_iff {d : PageDir} {taken : List ℕ} {good : ℕ → Prop} (hd : Loadable d taken good)
    {f : File} {ph : Proghdr} (hoff : ph.offset < 2 ^ 32) :
    ((∃ l b, loaduvm d f ph.va ph.offset ph.filesz = .ok (l, b) ∧ Contained taken l) ↔
      ph.va % pgsize = 0 ∧ ∀ j, j * pgsize < ph.filesz → ph.RoundSafe f good j) ∧
      ∀ l b, loaduvm d f ph.va ph.offset ph.filesz = .ok (l, b) → (b = true ↔ ph.Complete f) := by
  rw [loaduvm]
  by_cases halign : ph.va % pgsize = 0
  · rw [if_neg (by omega)]
    have hrounds : rounds 0 ph.filesz = pageUp ph.filesz := Nat.sub_zero _
    obtain ⟨hiff, hret⟩ := loadPages_iff hd hoff (f := f) (n := rounds 0 ph.filesz) (j := 0)
      (.inl (by omega)) (.inr (.inl rfl))
    rw [Nat.zero_mul] at hiff hret
    refine ⟨?_, fun l b h ↦ ?_⟩
    · rw [hiff, hrounds, and_iff_right halign]
      refine forall_congr' fun j ↦ ⟨fun h hj ↦ h (Nat.zero_le j) ?_, fun h _ hj ↦ h ?_⟩
      · simp only [pageUp, pgsize] at *
        omega
      · simp only [pageUp, pgsize] at *
        omega
    · rw [hret l b h, hrounds, Proghdr.Complete]
      refine or_congr ?_ Iff.rfl
      simp only [pageUp, pgsize]
      omega
  · rw [if_pos halign]
    constructor
    · constructor
      · rintro ⟨l, b, h, -⟩
        cases h
      · rintro ⟨h, -⟩
        exact absurd h halign
    · intro l b h
      cases h

/-! ## The program headers -/

/-- The size that a segment asks for. -/
def Proghdr.newsz (ph : Proghdr) : ℕ := (ph.va + ph.memsz) % 2 ^ 32

/-- `exec` goes on to `loaduvm`. -/
def Proghdr.Taken (ph : Proghdr) (top : ℕ) (frames : Freelist) (sz : ℕ) : Prop :=
  ph.filesz ≤ ph.memsz ∧ Fits top frames sz ph.newsz

/-- Every segment that `exec` gets to is safe: `n` headers from `off` on, for an image that has the
size `sz` so far. -/
def HeadersSafe (top : ℕ) (f : File) (frames : Freelist) : ℕ → ℕ → ℕ → Prop
  | 0, _, _ => True
  | n + 1, off, sz =>
    readi f.size off proghdrSize = some proghdrSize →
      if (f.proghdr off).type ≠ 1 then HeadersSafe top f frames n ((off + proghdrSize) % 2 ^ 32) sz
      else (f.proghdr off).Taken top frames sz →
        (f.proghdr off).Safe f frames (max sz (f.proghdr off).newsz) ∧
        ((f.proghdr off).Complete f → HeadersSafe top f frames n ((off + proghdrSize) % 2 ^ 32)
          (max sz (f.proghdr off).newsz))

theorem grow_trace {top newsz : ℕ} {im im' : Image} (h : im.grow L top newsz = .ok im') :
    im.trace <+: im'.trace := by
  obtain ⟨g, -, h⟩ := bind_eq_ok h
  obtain rfl := Except.ok.inj h
  exact List.prefix_append _ _

theorem loadSegment_trace {top : ℕ} {f : File} {ph : Proghdr} {im im' : Image} {b : Bool}
    (h : loadSegment L top f ph im = .ok (im', b)) : im.trace <+: im'.trace := by
  rw [loadSegment] at h
  split at h
  · obtain ⟨rfl, -⟩ := Prod.mk.inj (Except.ok.inj h)
    exact List.prefix_refl _
  obtain ⟨im₁, hgrow, h⟩ := bind_eq_ok h
  split at h
  · obtain ⟨rfl, -⟩ := Prod.mk.inj (Except.ok.inj h)
    exact grow_trace hgrow
  · obtain ⟨⟨l, b'⟩, -, h⟩ := bind_eq_ok h
    obtain ⟨rfl, -⟩ := Prod.mk.inj (Except.ok.inj h)
    exact (grow_trace hgrow).trans (List.prefix_append _ _)

theorem loadSegments_trace {top : ℕ} {f : File} {n off : ℕ} {im im' : Image} {b : Bool}
    (h : loadSegments L top f n off im = .ok (im', b)) : im.trace <+: im'.trace := by
  induction n generalizing off im with
  | zero =>
    obtain ⟨rfl, -⟩ := Prod.mk.inj (Except.ok.inj h)
    exact List.prefix_refl _
  | succ n ih =>
    rw [loadSegments] at h
    split at h
    · obtain ⟨rfl, -⟩ := Prod.mk.inj (Except.ok.inj h)
      exact List.prefix_refl _
    split at h
    · exact ih h
    obtain ⟨⟨im₁, b₁⟩, hseg, h⟩ := bind_eq_ok h
    cases b₁ with
    | false =>
      obtain ⟨rfl, -⟩ := Prod.mk.inj (Except.ok.inj h)
      exact loadSegment_trace hseg
    | true => exact (loadSegment_trace hseg).trans (ih h)

section Segments

variable {top : ℕ} {m₀ m₁ : Freelist} {im : Image} {f : File}

/-- The frames taken for an image are those in its trace. -/
theorem ImagePages.contained_append {l : List ℕ} (h : ImagePages m₁ im l) (tr : List Event) :
    Contained [] (im.trace ++ tr) ↔ Contained [] im.trace ∧ Contained l tr :=
  CS537.Shm.contained_append fun r ↦ by simp [h.trace r]

/-- What one segment does to the image: it grows by a segment that is taken, and `exec` goes on if
the file holds all of it. -/
theorem loadSegment_ret (h : ImageOk L top m₀ m₁ im) (hm : ∀ f ∈ m₁, L.Valid f)
    (htop : top ≤ usertop) {ph : Proghdr} (hoff : ph.offset < 2 ^ 32) {im' : Image} {b : Bool}
    (hload : loadSegment L top f ph im = .ok (im', b)) :
    (b = true ↔ ph.Taken top m₁ im.sz ∧ ph.Complete f) ∧
      (ph.Taken top m₁ im.sz → ImageOk L top m₀ m₁ im' ∧ im'.sz = max im.sz ph.newsz) ∧
      (¬ph.Taken top m₁ im.sz → im'.pgdir.pte = im.pgdir.pte) := by
  rw [loadSegment] at hload
  by_cases hsizes : ph.memsz < ph.filesz
  · rw [if_pos hsizes] at hload
    obtain ⟨rfl, rfl⟩ := Prod.mk.inj (Except.ok.inj hload)
    have hnot : ¬ph.Taken top m₁ im.sz := fun h ↦ absurd h.1 (by omega)
    simp [hnot]
  rw [if_neg hsizes] at hload
  obtain ⟨im₁, l, hgrow, -, -, hcases⟩ := grow_outcome ph.newsz h htop
  rw [show im.grow L top ((ph.va + ph.memsz) % 2 ^ 32) = .ok im₁ from hgrow, ok_bind] at hload
  rcases hcases with ⟨hzero, hnot, hpte⟩ | ⟨hsz, hfits, hok⟩
  · rw [if_pos hzero] at hload
    obtain ⟨rfl, rfl⟩ := Prod.mk.inj (Except.ok.inj hload)
    have hnot' : ¬ph.Taken top m₁ im.sz := fun h ↦ hnot h.2
    simp [hnot', hpte]
  · have hpos := hfits.2.1
    rw [if_neg (by omega)] at hload
    have htaken : ph.Taken top m₁ im.sz := ⟨by omega, hfits⟩
    obtain ⟨l₁, hpages⟩ := hok.pages
    have hret := (loaduvm_iff (hpages.loadable hok.own.space hm (hok.sz_le.trans htop)) (f := f)
      hoff).2
    obtain ⟨⟨l', b'⟩, hl', hload⟩ := bind_eq_ok hload
    obtain ⟨rfl, rfl⟩ := Prod.mk.inj (Except.ok.inj hload)
    refine ⟨(hret l' b' hl').trans (and_iff_right htaken).symm, fun _ ↦ ⟨?_, hsz⟩, ?_⟩
    · exact hok.addStores (loaduvm_alloc hl')
    · intro hnot
      exact absurd htaken hnot

theorem loadSegment_iff (h : ImageOk L top m₀ m₁ im) (hm : ∀ f ∈ m₁, L.Valid f)
    (htop : top ≤ usertop) {ph : Proghdr} (hoff : ph.offset < 2 ^ 32)
    (hcont : Contained [] im.trace) :
    (∃ im' b, loadSegment L top f ph im = .ok (im', b) ∧ Contained [] im'.trace) ↔
      (ph.Taken top m₁ im.sz → ph.Safe f m₁ (max im.sz ph.newsz)) := by
  rw [loadSegment]
  by_cases hsizes : ph.memsz < ph.filesz
  · rw [if_pos hsizes]
    have hnot : ¬ph.Taken top m₁ im.sz := fun h ↦ absurd h.1 (by omega)
    constructor
    · intro _ h
      exact absurd h hnot
    · intro _
      exact ⟨im, false, rfl, hcont⟩
  rw [if_neg hsizes]
  obtain ⟨im₁, l, hgrow, hown, htrace, hcases⟩ := grow_outcome ph.newsz h htop
  rw [show im.grow L top ((ph.va + ph.memsz) % 2 ^ 32) = .ok im₁ from hgrow, ok_bind]
  have hcont₁ : Contained [] im₁.trace := by
    obtain ⟨l₀, hpages⟩ := h.pages
    rw [htrace, hpages.contained_append]
    exact ⟨hcont, contained_allocs l₀ l⟩
  -- a size of 0 sends `exec` to `bad`, also when `va + memsz` has wrapped to 0
  rcases hcases with ⟨hzero, hnot, -⟩ | ⟨hsz, hfits, hok⟩
  · rw [if_pos hzero]
    have hnot' : ¬ph.Taken top m₁ im.sz := fun h ↦ hnot h.2
    constructor
    · intro _ h
      exact absurd h hnot'
    · intro _
      exact ⟨im₁, false, rfl, hcont₁⟩
  · have hpos := hfits.2.1
    rw [if_neg (by omega)]
    have htaken : ph.Taken top m₁ im.sz := ⟨by omega, hfits⟩
    obtain ⟨l₁, hpages⟩ := hok.pages
    have hload := hpages.loadable hok.own.space hm (hok.sz_le.trans htop)
    have hiff := (loaduvm_iff hload (f := f) hoff).1
    rw [hsz] at hiff
    constructor
    · rintro ⟨im', b, h, hcont'⟩ -
      obtain ⟨⟨l', b'⟩, hl', h⟩ := bind_eq_ok h
      obtain ⟨rfl, rfl⟩ := Prod.mk.inj (Except.ok.inj h)
      obtain ⟨h1, h2⟩ := hiff.mp ⟨l', b', hl', ((hpages.contained_append l').mp hcont').2⟩
      exact ⟨h1, h2⟩
    · intro hsafe
      obtain ⟨l', b', hl', hcont'⟩ := hiff.mpr ⟨(hsafe htaken).1, (hsafe htaken).2⟩
      rw [hl', ok_bind]
      exact ⟨_, b', rfl, (hpages.contained_append l').mpr ⟨hcont₁, hcont'⟩⟩

theorem File.proghdr_offset_lt (f : File) (off : ℕ) : (f.proghdr off).offset < 2 ^ 32 := by
  have hbyte : ∀ i, f.byte i < 256 := fun i ↦ ((f.bytes[i]?).getD 0).isLt
  have h0 := hbyte (off + 4)
  have h1 := hbyte (off + 4 + 1)
  have h2 := hbyte (off + 4 + 2)
  have h3 := hbyte (off + 4 + 2 + 1)
  change f.uint (off + 4) < 2 ^ 32
  rw [File.uint, File.ushort, File.ushort]
  omega

theorem loadSegments_iff {n : ℕ} (off : ℕ) (h : ImageOk L top m₀ m₁ im)
    (hm : ∀ f ∈ m₁, L.Valid f) (htop : top ≤ usertop) (hcont : Contained [] im.trace) :
    (∃ im' b, loadSegments L top f n off im = .ok (im', b) ∧ Contained [] im'.trace) ↔
      HeadersSafe top f m₁ n off im.sz := by
  induction n generalizing off im with
  | zero => exact ⟨fun _ ↦ trivial, fun _ ↦ ⟨im, true, rfl, hcont⟩⟩
  | succ n ih =>
    rw [loadSegments, HeadersSafe]
    by_cases hread : readi f.size off proghdrSize = some proghdrSize
    · rw [if_neg (not_not.mpr hread), forall_prop_of_true hread]
      by_cases htype : (f.proghdr off).type ≠ 1
      · rw [if_pos htype, if_pos htype]
        exact ih _ h hcont
      · rw [if_neg htype, if_neg htype]
        have hoff := f.proghdr_offset_lt off
        have hiff := loadSegment_iff (f := f) h hm htop hoff hcont
        constructor
        · rintro ⟨im', b, hload, hcont'⟩ htaken
          obtain ⟨⟨im₁, b₁⟩, hseg, hload⟩ := bind_eq_ok hload
          obtain ⟨hb, hgrown, -⟩ := loadSegment_ret h hm htop hoff hseg
          -- a segment that the file does not hold in full ends the loop
          cases b₁ with
          | false =>
            obtain ⟨rfl, rfl⟩ := Prod.mk.inj (Except.ok.inj hload)
            refine ⟨hiff.mp ⟨_, _, hseg, hcont'⟩ htaken, fun hcomplete ↦ ?_⟩
            cases hb.mpr ⟨htaken, hcomplete⟩
          | true =>
            have hcont₁ := hcont'.of_prefix (loadSegments_trace hload)
            obtain ⟨hok, hsz⟩ := hgrown htaken
            refine ⟨hiff.mp ⟨_, _, hseg, hcont₁⟩ htaken, fun _ ↦ ?_⟩
            rw [← hsz]
            exact (ih _ hok hcont₁).mp ⟨im', b, hload, hcont'⟩
        · intro hsafe
          obtain ⟨im₁, b₁, hseg, hcont₁⟩ := hiff.mpr fun htaken ↦ (hsafe htaken).1
          obtain ⟨hb, hgrown, -⟩ := loadSegment_ret h hm htop hoff hseg
          rw [hseg, ok_bind]
          cases b₁ with
          | false => exact ⟨im₁, false, rfl, hcont₁⟩
          | true =>
            obtain ⟨htaken, hcomplete⟩ := hb.mp rfl
            obtain ⟨hok, hsz⟩ := hgrown htaken
            refine (ih _ hok hcont₁).mpr ?_
            rw [hsz]
            exact (hsafe htaken).2 hcomplete
    · rw [if_pos hread]
      constructor
      · intro _ h
        exact absurd h hread
      · intro _
        exact ⟨im, false, rfl, hcont⟩

/-- The stack page and the argument strings add nothing that can go wrong. -/
theorem buildImage_iff {m : Freelist} {d : PageDir} (h : ImageOk L top m₀ m ⟨m, d, 0, []⟩)
    (hm : ∀ f ∈ m, L.Valid f) (htop : top ≤ usertop) (halign : top % pgsize = 0)
    (argv : List Arg) :
    (∃ im b, buildImage L top f argv m d = .ok (im, b) ∧ Contained [] im.trace) ↔
      HeadersSafe top f m f.elfhdr.phnum f.elfhdr.phoff 0 := by
  rw [← loadSegments_iff f.elfhdr.phoff h hm htop trivial, buildImage]
  constructor
  · rintro ⟨im, b, hbuild, hcont⟩
    obtain ⟨⟨im₁, b₁⟩, hload, hbuild⟩ := bind_eq_ok hbuild
    refine ⟨im₁, b₁, hload, ?_⟩
    cases b₁ with
    | false =>
      obtain ⟨rfl, rfl⟩ := Prod.mk.inj (Except.ok.inj hbuild)
      exact hcont
    | true =>
      obtain ⟨im₂, hgrow, hbuild⟩ := bind_eq_ok hbuild
      have htrace := grow_trace hgrow
      refine Contained.of_prefix ?_ htrace
      split at hbuild
      · obtain ⟨rfl, rfl⟩ := Prod.mk.inj (Except.ok.inj hbuild)
        exact hcont
      · obtain ⟨ok, -, hbuild⟩ := bind_eq_ok hbuild
        obtain ⟨rfl, rfl⟩ := Prod.mk.inj (Except.ok.inj hbuild)
        exact hcont
  · rintro ⟨im₁, b₁, hload, hcont⟩
    rw [hload, ok_bind]
    cases b₁ with
    | false => exact ⟨im₁, false, rfl, hcont⟩
    | true =>
      have hok := ((loadSegments_memory h htop hload).2 rfl).round halign
      obtain ⟨im₂, l, hgrow, hown, htrace, hcases⟩ :=
        grow_outcome ((pgRoundUp im₁.sz + pgsize) % 2 ^ 32) hok htop
      have hcont₂ : Contained [] im₂.trace := by
        obtain ⟨l₀, hpages⟩ := hok.pages
        rw [htrace, hpages.contained_append]
        exact ⟨hcont, contained_allocs l₀ l⟩
      simp only [hgrow, ok_bind]
      split
      · exact ⟨im₂, false, rfl, hcont₂⟩
      · rename_i hne
        have hsz : im₂.sz ≤ usertop := by
          rcases hcases with ⟨hzero, -⟩ | ⟨-, -, hok₂⟩
          · exact absurd hzero hne
          · exact hok₂.sz_le.trans htop
        obtain ⟨b, hb⟩ := pushAll_ok hown.space argv hsz
        rw [hb, ok_bind]
        exact ⟨im₂, b, rfl, hcont₂⟩

end Segments

/-! ## `exec` -/

/-- `exec` returns 0 or -1, and `loaduvm` has written only to frames that were taken for the new
image before. -/
def ExecSafe (L : Link) (q : Slot) (file : Option File) (argv : List Arg) (s : Kernel) : Prop :=
  ∃ t x tr, exec L q file argv s = .ok (t, x, tr) ∧ (x = 0 ∨ x = -1) ∧ Contained [] tr

/-- `exec` takes the file for an executable. -/
def File.IsElf (f : File) : Prop := elfhdrSize ≤ f.size ∧ f.elfhdr.magic = 0x464C457F

theorem isElf_iff (f : File) : f.IsElf ↔
    ¬((readi f.size 0 elfhdrSize).getD (2 ^ 32 - 1) < elfhdrSize ∨
      f.elfhdr.magic ≠ 0x464C457F) := by
  have hread :
      (readi f.size 0 elfhdrSize).getD (2 ^ 32 - 1) < elfhdrSize ↔ f.size < elfhdrSize := by
    rcases readi_cases f 0 elfhdrSize (by decide) (by decide) (by decide) with
      ⟨h, -⟩ | ⟨-, h, hr⟩ | ⟨h, hr⟩
    · omega
    · rw [hr, Option.getD_some]
      omega
    · rw [hr, Option.getD_some]
      omega
  rw [hread, not_or, not_lt, not_not, File.IsElf]

/-- `setupkvm` takes the first 13 frames. -/
theorem Fresh.drop {m m' : Freelist} {d : PageDir} (h : Fresh L m m' d) : m.drop 13 = m' := by
  obtain ⟨l, hl, hlen, -⟩ := h.taken
  rw [hl, ← List.cons_append]
  exact List.drop_left' (by rw [List.length_cons, hlen])

theorem exec_safe_iff_headers {q : Slot} {s : Kernel} (hok : MemOk L s.mem)
    (hq : (s.proc q).state ≠ .unused) (f : File) (argv : List Arg) :
    ExecSafe L q (some f) argv s ↔ (f.IsElf → 13 ≤ s.freelist.length →
      HeadersSafe (s.proc q).shmtop f (s.freelist.drop 13) f.elfhdr.phnum f.elfhdr.phoff 0) := by
  have hp := hok.procs q _ (mem_proc hq)
  have htop : (s.proc q).shmtop ≤ usertop := hp.top_le
  have halign : (s.proc q).shmtop % pgsize = 0 := hp.top_aligned
  have hsz : (s.proc q).sz ≤ usertop := hp.sz_le.trans hp.top_le
  have hm : ∀ r ∈ s.freelist, L.Valid r := hok.free
  by_cases helf : f.IsElf
  · rw [forall_prop_of_true helf, ExecSafe, exec]
    rw [if_neg ((isElf_iff f).mp helf)]
    -- `setupkvm` takes the first 13 frames, or `exec` returns -1
    rcases setupkvm_outcome L s.freelist with ⟨hsetup, hlen⟩ | ⟨m, d, hsetup, hfresh⟩
    · rw [hsetup, ok_bind]
      constructor
      · intro _ h
        omega
      · intro _
        exact ⟨_, -1, [], rfl, .inr rfl, trivial⟩
    · have hlen := hfresh.length
      rw [forall_prop_of_true (by omega), hsetup, ok_bind]
      have hdrop : s.freelist.drop 13 = m := hfresh.drop
      have himage := hfresh.imageOk hm (s.proc q).shmtop
      rw [hdrop, ← buildImage_iff himage (hfresh.space hm).2 htop halign argv]
      constructor
      · rintro ⟨t, x, tr, h, -, hcont⟩
        obtain ⟨⟨im, b⟩, hbuild, h⟩ := bind_eq_ok h
        refine ⟨im, b, hbuild, ?_⟩
        cases b with
        | false =>
          obtain ⟨fl, -, h⟩ := bind_eq_ok h
          obtain ⟨-, h⟩ := Prod.mk.inj (Except.ok.inj h)
          obtain ⟨-, rfl⟩ := Prod.mk.inj h
          exact hcont
        | true =>
          obtain ⟨u, -, h⟩ := bind_eq_ok h
          obtain ⟨-, h⟩ := Prod.mk.inj (Except.ok.inj h)
          obtain ⟨-, rfl⟩ := Prod.mk.inj h
          exact hcont
      · rintro ⟨im, b, hbuild, hcont⟩
        obtain ⟨hown, hbuilt⟩ := buildImage_memory himage htop halign hbuild
        simp only
        rw [hbuild, ok_bind]
        cases b with
        | false =>
          obtain ⟨l, hfree, -⟩ := freevm_freed im.freelist hown.space hsz
          simp only
          rw [hfree, ok_bind]
          exact ⟨_, -1, im.trace, rfl, .inr rfl, hcont⟩
        | true =>
          obtain ⟨-, -, u, hu, -⟩ := commit_ok im hok hq ((hbuilt rfl).1.sz_le.trans htop)
          simp only
          rw [hu, ok_bind]
          exact ⟨_, 0, im.trace, rfl, .inl rfl, hcont⟩
  · constructor
    · intro _ h
      exact absurd h helf
    · intro _
      refine ⟨s, -1, [], ?_, .inr rfl, trivial⟩
      rw [exec]
      exact if_pos (not_not.mp (mt (isElf_iff f).mpr helf))

/-- An executable of 84 bytes with one segment: all 84 bytes go to the address `0x100000`, and
`va + memsz` comes to `0x1000`. -/
def kernelWriter : File where
  bytes := [0x7F, 0x45, 0x4C, 0x46] ++ List.replicate 24 0 ++ [52, 0, 0, 0] ++ List.replicate 12 0
    ++ [1, 0] ++ List.replicate 6 0 ++ [1, 0, 0, 0] ++ List.replicate 4 0 ++ [0, 0, 0x10, 0]
    ++ List.replicate 4 0 ++ [84, 0, 0, 0] ++ [0, 0x10, 0xF0, 0xFF] ++ List.replicate 8 0
  size_le := by decide

/-- It overwrites the first page of the kernel. -/
theorem not_exec_safe : ∃ s, Reach kernelImage s ∧ s.Ready initproc ∧
    ¬ExecSafe kernelImage initproc (some kernelWriter) [] s := by
  obtain ⟨s, hs, hready, hlen, -, htop, -⟩ :=
    exists_running (L := kernelImage) (by rw [length_frames_kernelImage]; decide)
  rw [length_frames_kernelImage] at hlen
  refine ⟨s, hs, hready, fun hsafe ↦ ?_⟩
  have hheaders := (exec_safe_iff_headers hs.memOk hready.ne_unused kernelWriter []).mp hsafe
    ⟨by decide, by decide⟩ (by omega)
  have hlen' : (s.freelist.drop 13).length = 3782 := by
    rw [List.length_drop]
    omega
  have hvalid : ∀ r ∈ s.freelist.drop 13, kernelImage.Valid r := fun r hr ↦
    hs.memOk.free r (List.mem_of_mem_drop hr)
  generalize s.freelist.drop 13 = frames at hheaders hlen' hvalid
  have hph : kernelWriter.proghdr 52 = ⟨1, 0, 0x100000, 84, 0xFFF01000⟩ := rfl
  have hphnum : kernelWriter.elfhdr.phnum = 1 := by decide
  have hphoff : kernelWriter.elfhdr.phoff = 52 := by decide
  rw [hphnum, hphoff, htop, HeadersSafe, hph] at hheaders
  have htaken : (⟨1, 0, 0x100000, 84, 0xFFF01000⟩ : Proghdr).Taken usertop frames 0 := by
    refine ⟨by decide, by decide, by decide, ?_⟩
    have hneed : pageUp (max 0 (⟨1, 0, 0x100000, 84, 0xFFF01000⟩ : Proghdr).newsz) = 1 := by decide
    omega
  have hsegment := ((hheaders (by decide)) htaken).1
  have hpage := (hsegment.round 0 (by decide)).page (by decide)
  -- the page `0x100000` is neither in the image nor the address of a frame
  rcases hpage with hlow | hframe
  · exact absurd hlow (by decide)
  · have := (hvalid _ (List.mem_of_mem_take hframe)).2.1
    exact absurd this (by decide)

/-- **When `exec` is safe.** In every reachable state, for every file and all arguments: `exec`
returns and writes only to frames of the new image if and only if every segment that it gets to is
safe. -/
theorem Reach.exec_safe_iff {q : Slot} {s : Kernel} (hs : Reach L s) (hq : s.Ready q) (f : File)
    (argv : List Arg) :
    ExecSafe L q (some f) argv s ↔ (f.IsElf → 13 ≤ s.freelist.length →
      HeadersSafe (s.proc q).shmtop f (s.freelist.drop 13) f.elfhdr.phnum f.elfhdr.phoff 0) :=
  exec_safe_iff_headers hs.memOk hq.ne_unused f argv

/-- An executable of 84 bytes with one segment: all 84 bytes go to the address 0. -/
def oneSegment : File where
  bytes := [0x7F, 0x45, 0x4C, 0x46] ++ List.replicate 24 0 ++ [52, 0, 0, 0] ++ List.replicate 12 0
    ++ [1, 0] ++ List.replicate 6 0 ++ [1, 0, 0, 0] ++ List.replicate 12 0 ++ [84, 0, 0, 0]
    ++ [84, 0, 0, 0] ++ List.replicate 8 0
  size_le := by decide

theorem exec_safe_oneSegment : ∃ s, Reach kernelImage s ∧ s.Ready initproc ∧
    13 ≤ s.freelist.length ∧ (oneSegment.proghdr 52).Taken (s.proc initproc).shmtop
      (s.freelist.drop 13) 0 ∧
    ∀ argv, ExecSafe kernelImage initproc (some oneSegment) argv s := by
  obtain ⟨s, hs, hready, hlen, -, htop, -⟩ :=
    exists_running (L := kernelImage) (by rw [length_frames_kernelImage]; decide)
  rw [length_frames_kernelImage] at hlen
  have hph : oneSegment.proghdr 52 = ⟨1, 0, 0, 84, 84⟩ := rfl
  have hphnum : oneSegment.elfhdr.phnum = 1 := by decide
  have hphoff : oneSegment.elfhdr.phoff = 52 := by decide
  have hlen' : (s.freelist.drop 13).length = 3782 := by
    rw [List.length_drop]
    omega
  refine ⟨s, hs, hready, by omega, ?_, fun argv ↦
    (Reach.exec_safe_iff hs hready oneSegment argv).mpr fun _ _ ↦ ?_⟩
  · rw [hph, htop]
    refine ⟨by decide, by decide, by decide, ?_⟩
    have hneed : pageUp (max 0 (⟨1, 0, 0, 84, 84⟩ : Proghdr).newsz) = 1 := by decide
    omega
  · rw [hphnum, hphoff, HeadersSafe, hph]
    intro _
    rw [if_neg (by decide)]
    refine fun _ ↦ ⟨⟨rfl, fun j hj ↦ ?_⟩, fun _ ↦ trivial⟩
    -- the segment lies in the first page
    obtain rfl : j = 0 := by
      change j * pgsize < 84 at hj
      rw [pgsize] at hj
      omega
    exact ⟨fun _ ↦ by decide, fun _ ↦ .inl (by decide)⟩

end CS537.Shm
