import CS537.Shm.Transfer

/-!
# Containment of `read` and `write`

Which bytes of user memory a transfer may touch, and when it stays within them. A length that is
not negative is safe: the end that `argptr` has checked does not wrap and the file only shortens the
transfer. For a negative length the check says nothing about the end.
-/

open Finset Function

namespace CS537.Shm

variable {L : Link} {s : Kernel} {p : Proc} {u : User OpenFile}

/-- The byte at `x` belongs to the process: it lies below the size or in an attached region. -/
def Kernel.UserByte (s : Kernel) (p : Proc) (x : ℕ) : Prop :=
  x < p.sz ∨ ∃ k ∈ p.attachedKeys, x ∈ s.region p k

/-- Every byte of the pieces belongs to the process. -/
def Kernel.Contained (s : Kernel) (p : Proc) (l : List (ℕ × ℕ)) : Prop :=
  ∀ x, Touched l x → s.UserByte p x

/-- How far a transfer that starts at `a` may go: to the size, or to the end of the user addresses
where it starts in a region or the regions follow the size at once. -/
def limit (p : Proc) (a : ℕ) : ℕ := if a < p.sz ∧ p.sz < p.shmtop then p.sz else usertop

/-- A transfer with an accepted negative length `n`, in the direction of `mode` and `clamp`, ends by
the limit with every block that it gets to. -/
def TransferFits (p : Proc) (u : User OpenFile) (mode : OpenFile → Bool)
    (clamp : ℕ → ℕ → ℕ → Option ℕ) : Prop :=
  ∀ fd f a n len, rwArgs p u = some (fd, f, a, n) → n.toInt < 0 → mode f = true →
    clamp f.size f.off n.toNat = some len →
    ∀ i, Gets f.off len f.blocks i → a + upTo f.off len i ≤ limit p a

/-! ## The bytes of a process -/

theorem userByte_iff (hcover : p.attachedKeys.biUnion (s.region p) = Ico p.shmtop usertop)
    (x : ℕ) : s.UserByte p x ↔ x < p.sz ∨ p.shmtop ≤ x ∧ x < usertop := by
  rw [Kernel.UserByte, ← mem_biUnion, hcover, mem_Ico]

/-- The bytes from an accepted start on belong to the process up to the limit. -/
theorem range_iff (hsz : p.sz ≤ p.shmtop) (htop : p.shmtop ≤ usertop)
    (hcover : p.attachedKeys.biUnion (s.region p) = Ico p.shmtop usertop) {a n : ℕ}
    (ha : a < bound p a) (_ : 0 < n) :
    (∀ x, a ≤ x → x < a + n → s.UserByte p x) ↔ a + n ≤ limit p a := by
  simp only [userByte_iff hcover]
  rw [bound] at ha
  rw [limit]
  -- a start below the size, or in a region
  split_ifs at ha with hlow
  · constructor
    · intro h
      split_ifs with hgap
      · by_contra hlt
        have := h p.sz (by omega) (by omega)
        omega
      · by_contra hlt
        have := h usertop (by omega) (by omega)
        omega
    · intro h x h1 h2
      split_ifs at h with hgap <;> omega
  · have hbound := getShmBound_le (p := p) a
    rw [if_neg (by omega)]
    constructor
    · intro h
      by_contra hlt
      have := h usertop (by omega) (by omega)
      omega
    · intro h x h1 h2
      omega

/-- With a length that is not negative the checked end is the end. -/
theorem end_le_limit (hsz : p.sz ≤ p.shmtop) (htop : p.shmtop ≤ usertop) {a : ℕ} {n : BitVec 32}
    (ha : a < bound p a) (hend : (a + n.toNat) % 2 ^ 32 ≤ bound p a) (hn : 0 ≤ n.toInt) :
    a + n.toNat ≤ limit p a := by
  have hlt : n.toNat < 2 ^ 31 := by
    rw [BitVec.toInt_eq_toNat_cond] at hn
    split at hn <;> omega
  have hbound := getShmBound_le (p := p) a
  rw [bound] at ha hend
  rw [limit]
  simp only [usertop] at *
  split_ifs at * <;> omega

/-! ## The length as cut down to the file -/

theorem readi_le {size off n len : ℕ} (h : readi size off n = some len) (hn : n < 2 ^ 31) :
    len ≤ n := by
  rw [readi] at h
  split_ifs at h <;> cases h <;> omega

/-- `bmap` refuses the blocks behind the largest file. -/
theorem bmap_lt {b b' : Blocks} {bn : ℕ} (h : bmap b bn = .ok b') : bn < ndirect + nindirect := by
  rw [bmap] at h
  split_ifs at h with h1 h2 h3 <;> omega

theorem Gets.off_lt {off n i : ℕ} {b : Blocks} (h : Gets off n b i) : off < maxFileSize := by
  obtain ⟨-, -, b', hb⟩ := h
  rw [bmaps] at hb
  cases h1 : bmap b (off / bsize) with
  | error e =>
    rw [h1] at hb
    cases hb
  | ok b₁ =>
    have := bmap_lt h1
    simp only [ndirect, nindirect, bsize, maxFileSize] at *
    omega

theorem writei_le {size off n len : ℕ} (h : writei size off n = some len) (hn : n < 2 ^ 31)
    (hoff : off < maxFileSize) : len ≤ n := by
  rw [writei] at h
  split_ifs at h
  · cases h
    rw [sub32_of_le hoff.le (by decide)]
    omega
  · cases h
    exact le_rfl

/-! ## Transfers -/

theorem touched_fileread (f : OpenFile) (a n x : ℕ) :
    Touched (fileread f a n).1 x ↔ f.readable = true ∧ ∃ len, readi f.size f.off n = some len ∧
      Touched (copyBlocks f.off a len f.blocks).1 x := by
  rw [fileread]
  split_ifs with hmode
  · refine iff_of_false (not_touched_nil x) ?_
    rintro ⟨h, -⟩
    rw [hmode] at h
    cases h
  · rw [Bool.not_eq_false] at hmode
    cases readi f.size f.off n with
    | none =>
      refine iff_of_false (not_touched_nil x) ?_
      rintro ⟨-, len, h, -⟩
      cases h
    | some len =>
      simp only [hmode, true_and, Option.some.injEq, exists_eq_left']

theorem touched_filewrite (f : OpenFile) (a n x : ℕ) :
    Touched (filewrite f a n).1 x ↔ f.writable = true ∧ ∃ len, writei f.size f.off n = some len ∧
      Touched (copyBlocks f.off a len f.blocks).1 x := by
  rw [filewrite]
  split_ifs with hmode
  · refine iff_of_false (not_touched_nil x) ?_
    rintro ⟨h, -⟩
    rw [hmode] at h
    cases h
  · rw [Bool.not_eq_false] at hmode
    cases writei f.size f.off n with
    | none =>
      refine iff_of_false (not_touched_nil x) ?_
      rintro ⟨-, len, h, -⟩
      cases h
    | some len =>
      simp only [hmode, true_and, Option.some.injEq, exists_eq_left']

theorem touched_onFile
    (call : OpenFile → ℕ → ℕ → List (ℕ × ℕ) × Except String (OpenFile × ℤ)) (x : ℕ) :
    Touched (onFile p u call).1 x
      ↔ ∃ fd f a n, rwArgs p u = some (fd, f, a, n) ∧ Touched (call f a n.toNat).1 x := by
  rw [onFile]
  cases rwArgs p u with
  | none =>
    refine iff_of_false (not_touched_nil x) ?_
    rintro ⟨fd, f, a, n, h, -⟩
    cases h
  | some args =>
    obtain ⟨fd, f, a, n⟩ := args
    constructor
    · exact fun h ↦ ⟨fd, f, a, n, rfl, h⟩
    · rintro ⟨fd, f, a, n, h, hx⟩
      cases h
      exact hx

/-- Both directions at once: `call` copies the blocks of the file if `mode` allows it, over the
length as cut down by `clamp`. -/
theorem contained_onFile_iff {mode : OpenFile → Bool} {clamp : ℕ → ℕ → ℕ → Option ℕ}
    {call : OpenFile → ℕ → ℕ → List (ℕ × ℕ) × Except String (OpenFile × ℤ)}
    (hcall : ∀ f a n x, Touched (call f a n).1 x ↔ mode f = true ∧
      ∃ len, clamp f.size f.off n = some len ∧ Touched (copyBlocks f.off a len f.blocks).1 x)
    (hclamp : ∀ size off n len, clamp size off n = some len → n < 2 ^ 31 → off < maxFileSize →
      len ≤ n)
    (hsz : p.sz ≤ p.shmtop) (htop : p.shmtop ≤ usertop)
    (hcover : p.attachedKeys.biUnion (s.region p) = Ico p.shmtop usertop) :
    s.Contained p (onFile p u call).1 ↔ TransferFits p u mode clamp := by
  constructor
  · intro h fd f a n len hargs _ hmode hlen i hi
    obtain ⟨ha, -⟩ := rwArgs_eq_some hargs
    -- a block that is got to holds at least one byte of the transfer
    have hpos : 0 < upTo f.off len i := by
      have hmod : f.off % bsize < bsize := Nat.mod_lt _ (by decide)
      have := hi.1
      rw [upTo]
      simp only [bsize] at *
      omega
    refine (range_iff hsz htop hcover ha hpos).mp fun x h1 h2 ↦ h x ?_
    rw [touched_onFile]
    refine ⟨fd, f, a, n, hargs, (hcall f a _ x).mpr ⟨hmode, len, hlen, ?_⟩⟩
    exact (touched_copyBlocks ..).mpr ⟨i, hi, h1, h2⟩
  · intro h x hx
    rw [touched_onFile] at hx
    obtain ⟨fd, f, a, n, hargs, hx⟩ := hx
    obtain ⟨hmode, len, hlen, hx⟩ := (hcall f a _ x).mp hx
    obtain ⟨i, hi, h1, h2⟩ := (touched_copyBlocks ..).mp hx
    obtain ⟨ha, hend⟩ := rwArgs_eq_some hargs
    have hfits : a + upTo f.off len i ≤ limit p a := by
      -- a length that is not negative has its end checked by `argptr`
      by_cases hn : n.toInt < 0
      · exact h fd f a n len hargs hn hmode hlen i hi
      · have hle := end_le_limit hsz htop ha hend (not_lt.mp hn)
        have hlt : n.toNat < 2 ^ 31 := by
          rw [BitVec.toInt_eq_toNat_cond] at hn
          split at hn <;> omega
        have hcut := hclamp _ _ _ _ hlen hlt hi.off_lt
        have hup : upTo f.off len i ≤ len := min_le_left _ _
        omega
    exact (range_iff hsz htop hcover ha (by omega)).mpr hfits x h1 h2

theorem contained_sysRead_iff (hsz : p.sz ≤ p.shmtop) (htop : p.shmtop ≤ usertop)
    (hcover : p.attachedKeys.biUnion (s.region p) = Ico p.shmtop usertop) (u : User OpenFile) :
    s.Contained p (sysRead p u).1 ↔ TransferFits p u OpenFile.readable readi :=
  contained_onFile_iff touched_fileread (fun _ _ _ _ h hn _ ↦ readi_le h hn) hsz htop hcover

theorem contained_sysWrite_iff (hsz : p.sz ≤ p.shmtop) (htop : p.shmtop ≤ usertop)
    (hcover : p.attachedKeys.biUnion (s.region p) = Ico p.shmtop usertop) (u : User OpenFile) :
    s.Contained p (sysWrite p u).1 ↔ TransferFits p u OpenFile.writable writei :=
  contained_onFile_iff touched_filewrite (fun _ _ _ _ ↦ writei_le) hsz htop hcover

/-- **Containment of `read` and `write`.** In every process in which the regions fill the addresses
from `shmtop` to `USERTOP`, the bytes that `sys_read` stores to and `sys_write` loads from belong to
the process exactly when a transfer of negative length, as cut down to the file, happens to end by
the limit. -/
theorem transfer_contained_iff (s : Kernel) (p : Proc) (hsz : p.sz ≤ p.shmtop)
    (htop : p.shmtop ≤ usertop)
    (hcover : p.attachedKeys.biUnion (s.region p) = Ico p.shmtop usertop) (u : User OpenFile) :
    (s.Contained p (sysRead p u).1 ↔ TransferFits p u OpenFile.readable readi) ∧
      (s.Contained p (sysWrite p u).1 ↔ TransferFits p u OpenFile.writable writei) :=
  ⟨contained_sysRead_iff hsz htop hcover u, contained_sysWrite_iff hsz htop hcover u⟩

/-- So in every process of a reachable state. -/
theorem Reach.transfers_contained_iff (hs : Reach L s) {q : Slot} (hq : (s.proc q).Live)
    (u : User OpenFile) :
    (s.Contained (s.proc q) (sysRead (s.proc q) u).1
        ↔ TransferFits (s.proc q) u OpenFile.readable readi) ∧
      (s.Contained (s.proc q) (sysWrite (s.proc q) u).1
        ↔ TransferFits (s.proc q) u OpenFile.writable writei) := by
  have hlayout := (hs.memOk.procs q _ (mem_proc hq.ne_unused)).layout
  exact ⟨contained_sysRead_iff hlayout.sz_le hlayout.top_le hlayout.cover u,
    contained_sysWrite_iff hlayout.sz_le hlayout.top_le hlayout.cover u⟩

/-! ## A transfer past the end of the user addresses -/

/-- A file of two bytes in one block, open for reading and writing at its start. -/
def twoBytes : OpenFile where
  readable := true
  writable := true
  off := 0
  size := 2
  blocks := ⟨fun i ↦ i = 0, none, 0⟩

/-- A call with the descriptor 0, a pointer to the last user byte and the length -1, the arguments
at the start of the first page. -/
def lastByteCall : User OpenFile where
  esp := 0
  word := fun a ↦ if a = 8 then 0x9FFFF#32 else if a = 12 then 0xFFFFFFFF#32 else 0#32
  ofile := fun _ ↦ some twoBytes

/-- A process of one page with a region of one page below `USERTOP`. -/
theorem rwArgs_lastByteCall {p : Proc} {k : Key} (hsz : p.sz = pgsize)
    (htop : p.shmtop = usertop - pgsize)
    (hvaddr : p.shmemVaddr = update (fun _ ↦ 0) k (usertop - pgsize)) :
    ∃ fd, rwArgs p lastByteCall = some (fd, twoBytes, 0x9FFFF, 0xFFFFFFFF#32) := by
  have hlow : ∀ a, a < 0x1000 → bound p a = pgsize := by
    intro a ha
    rw [bound_of_lt, hsz]
    rw [htop]
    simp only [usertop, pgsize]
    omega
  have hshm : bound p 0x9FFFF = usertop := by
    refine bound_of_vaddr_le (by rw [htop]; decide) fun j ↦ ?_
    rw [hvaddr, update_apply]
    split <;> decide
  have hint : ∀ n, n < 3 → argint p lastByteCall n = some (lastByteCall.word (4 + 4 * n)) := by
    intro n hn
    have haddr : (lastByteCall.esp + 4 + 4 * n) % 2 ^ 32 = 4 + 4 * n := by
      simp only [lastByteCall]
      omega
    rw [argint, haddr, fetchint, if_neg]
    rw [hlow _ (by omega)]
    simp only [pgsize]
    omega
  have hfd : argfd p lastByteCall 0 = some (⟨0, by decide⟩, twoBytes) := by
    rw [argfd, hint 0 (by decide)]
    rfl
  have hptr : argptr p lastByteCall 1 0xFFFFFFFF#32 = some 0x9FFFF := by
    rw [argptr, hint 1 (by decide)]
    change (if bound p 0x9FFFF ≤ 0x9FFFF ∨ bound p 0x9FFFF < _ then none else some 0x9FFFF) = _
    rw [hshm]
    rfl
  refine ⟨⟨0, by decide⟩, ?_⟩
  rw [rwArgs, hfd, hint 2 (by decide)]
  change (argptr p lastByteCall 1 0xFFFFFFFF#32).bind _ = _
  rw [hptr]
  rfl

/-- The first process runs with a region of one page. -/
theorem transfer_past_usertop : ∃ s, Reach kernelImage s ∧ s.Ready initproc ∧
    Touched (sysRead (s.proc initproc) lastByteCall).1 usertop ∧
    Touched (sysWrite (s.proc initproc) lastByteCall).1 usertop ∧
    ¬ s.UserByte (s.proc initproc) usertop := by
  obtain ⟨s, k, hplain, hready, hsz, htop, hvaddr, -⟩ := exists_attached
  have hs := hplain.reach
  obtain ⟨fd, hargs⟩ := rwArgs_lastByteCall hsz htop hvaddr
  have hcopy : ∀ len, 2 ≤ len →
      Touched (copyBlocks 0 0x9FFFF len twoBytes.blocks).1 usertop := by
    intro len hlen
    refine (touched_copyBlocks ..).mpr ⟨0, ⟨by omega, by omega, _, rfl⟩, by decide, ?_⟩
    simp only [upTo, usertop, bsize]
    omega
  have hlive : (s.proc initproc).Live := .inr (.inl hready.1)
  have hlayout := (hs.memOk.procs initproc _ (mem_proc hlive.ne_unused)).layout
  refine ⟨s, hs, hready, ?_, ?_, ?_⟩
  · exact (touched_onFile _ _).mpr ⟨fd, _, _, _, hargs,
      (touched_fileread ..).mpr ⟨rfl, 2, by decide, hcopy 2 le_rfl⟩⟩
  · exact (touched_onFile _ _).mpr ⟨fd, _, _, _, hargs,
      (touched_filewrite ..).mpr ⟨rfl, maxFileSize, by decide, hcopy _ (by decide)⟩⟩
  · rw [userByte_iff hlayout.cover, hsz]
    simp only [usertop, pgsize]
    omega

/-- `read` and `write` run past `USERTOP`. -/
theorem not_transfer_contained : ∃ s, Reach kernelImage s ∧ (s.proc initproc).Live ∧
    ¬ s.Contained (s.proc initproc) (sysRead (s.proc initproc) lastByteCall).1 ∧
    ¬ s.Contained (s.proc initproc) (sysWrite (s.proc initproc) lastByteCall).1 := by
  obtain ⟨s, hs, hready, hread, hwrite, hnot⟩ := transfer_past_usertop
  exact ⟨s, hs, .inr (.inl hready.1), fun h ↦ hnot (h _ hread), fun h ↦ hnot (h _ hwrite)⟩

/-- The condition on that call. -/
theorem not_fits_lastByteCall : ∃ s, Reach kernelImage s ∧
    ¬ TransferFits (s.proc initproc) lastByteCall OpenFile.readable readi ∧
    ¬ TransferFits (s.proc initproc) lastByteCall OpenFile.writable writei := by
  obtain ⟨s, hs, hready, hread, hwrite, hnot⟩ := transfer_past_usertop
  have hlayout := (hs.memOk.procs initproc _ (mem_proc hready.ne_unused)).layout
  obtain ⟨h1, h2⟩ := transfer_contained_iff s (s.proc initproc) hlayout.sz_le hlayout.top_le
    hlayout.cover lastByteCall
  exact ⟨s, hs, fun h ↦ hnot (h1.mpr h _ hread), fun h ↦ hnot (h2.mpr h _ hwrite)⟩

end CS537.Shm
