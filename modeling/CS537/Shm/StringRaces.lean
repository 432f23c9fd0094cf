import CS537.Shm.StringCalls

/-!
# Strings and the stores of other processes

What a system call can rely on when it takes strings, and how a process that shares a region with
the caller makes it run past the end of a path that `fetchstr` has accepted.
-/

open Function Interference Transition

namespace CS537.Shm

/-- Every read of an accepted string lies between its start and its bound, at or before a NUL that
is there now, and the lengths that `exec` has measured agree. -/
structure StringsOk {p : Proc} (c : Config Phys (Access p) ℤ) : Prop where
  inside : ∀ s x, .read s x ∈ c.log → s.addr ≤ x ∧ x < bound p s.addr ∧
    ∃ y, x ≤ y ∧ y < bound p s.addr ∧ p.load c.mem y = some 0
  lens : ∀ s n m, .lens s n m ∈ c.log → n = m

theorem Valid.stringsOk {p : Proc} {c : Config Phys (Access p) ℤ} (h : Valid c.log c.mem) :
    StringsOk c := by
  refine ⟨fun s x hx ↦ ?_, h.lens⟩
  obtain ⟨i, hacc, hle, hle'⟩ := h.read s x hx
  obtain ⟨hbound, hnul⟩ := h.nul s i hacc
  exact ⟨hle, by omega, s.addr + i, hle', hbound, hnul⟩

/-- **Validated strings.** In a run of a system call of the process `q` in which every store of
another process spares the strings accepted so far, the strings stay valid. -/
theorem strings_stay_valid (s : Kernel) (q : Slot) {fuel esp : ℕ} {call : Code (s.proc q) ℤ}
    (hcall : call ∈ Code.stringCalls fuel esp) (mem : Phys)
    {tr : List (Move (Config Phys (Access (s.proc q)) ℤ) (Label Store))}
    {c : Config Phys (Access (s.proc q)) ℤ}
    (hrun : Run (Interference.step (store s q)) ⟨call, mem, []⟩ tr c)
    (hstores : ∀ mv ∈ tr, Sparing s mv) : StringsOk c := by
  have hsafe := (Safe.stringCalls hcall).holds List.nil_prefix (Valid.nil : Valid [] mem)
  have hvalid : Valid c.log c.mem :=
    Holds.run Valid.stable (c := ⟨call, mem, []⟩) Valid.nil hsafe hrun fun mv hmv ↦
      (hstores mv hmv).relies (hrun.enabled mv hmv)
  exact hvalid.stringsOk

/-! ## Two processes with a common page -/

/-- Two processes share the page below `USERTOP`, in the frame `f₁`; the first page of `initproc`
lies in the frame `f₀`. -/
structure Sharing (s : Kernel) (z : Slot) (f₀ f₁ : ℕ) : Prop where
  ne : z ≠ initproc
  live : (s.proc z).Live
  low : bound (s.proc initproc) 4 = pgsize
  high : bound (s.proc initproc) 0x9FFFF = usertop
  text : (s.proc initproc).pgdir.pte 0 = some ⟨f₀, true, true⟩
  shared : (s.proc initproc).pgdir.pte 0x9F = some ⟨f₁, true, true⟩
  shared' : (s.proc z).pgdir.pte 0x9F = some ⟨f₁, true, true⟩
  aligned₀ : f₀ % pgsize = 0
  aligned₁ : f₁ % pgsize = 0

theorem exists_sharing : ∃ s z f₀ f₁, Reach kernelImage s ∧ s.Ready initproc ∧
    Sharing s z f₀ f₁ := by
  obtain ⟨s, z, k, hplain, hne, hready, hz, hsz, htop, hvaddr, hzvaddr, hpages, hfull, -⟩ :=
    exists_two_holders
  have hs := hplain.reach
  have hok := hs.memOk.procs initproc _ (mem_proc hready.ne_unused)
  have hokz := hs.memOk.procs z _ (mem_proc hz.ne_unused)
  have hvk : (s.proc initproc).shmemVaddr k = 0x9F000 := by rw [hvaddr, update_self]; rfl
  have hzk : (s.proc z).shmemVaddr k = 0x9F000 := by rw [hzvaddr, hvk]
  have hrow : 0 < s.shmemPages k := by rw [hpages]; decide
  -- both have the one page of the region mapped to the frame recorded for it
  have hentry : ∀ {q}, ProcOk kernelImage s.shmemPages s.shmemPaddr (s.proc q).view →
      (s.proc q).shmemVaddr k = 0x9F000 → (s.proc q).pgdir.pte 0x9F
        = some ⟨s.shmemPaddr k (s.shmemPages k - 1), true, true⟩ := by
    intro q hq hqk
    have hpte : (s.proc q).pgdir.pte ((s.proc q).shmemVaddr k / pgsize + 0) = _ :=
      hq.entry k (hqk.trans_ne (by decide)) 0 hrow
    rwa [hqk] at hpte
  obtain ⟨e, he⟩ := Option.isSome_iff_exists.mp (hfull 0 (by rw [hsz]; decide))
  obtain ⟨hvalid₀, hw, hu⟩ := hok.space.user 0 (by decide) e he
  obtain ⟨hvalid₁, -⟩ := hok.space.user 0x9F (by decide) _ (hentry hok hvk)
  refine ⟨s, z, e.pa, _, hs, hready, hne, hz, ?_, ?_, ?_, hentry hok hvk, hentry hokz hzk,
    hvalid₀.1, hvalid₁.1⟩
  · rw [bound_of_lt (by rw [htop]; decide), hsz]
  · refine bound_of_vaddr_le (by rw [htop]; decide) fun j ↦ ?_
    rw [hvaddr, update_apply]
    split <;> decide
  · rw [he]
    rcases e with ⟨pa, w, u⟩
    simp only at hw hu
    rw [hw, hu]

/-- Memory with the address of the last byte below `USERTOP` as the first argument. -/
def lastBytePath (f₀ : ℕ) : Phys := fun a ↦
  if a = f₀ + 4 ∨ a = f₀ + 5 then 0xFF#8 else if a = f₀ + 6 then 0x09#8 else 0#8

theorem PageDir.translate_of_pte {d : PageDir} {v f x : ℕ} (h : d.pte v = some ⟨f, true, true⟩)
    (hx : x < pgsize) : d.translate (v * pgsize + x) = some (f + x) := by
  have hpage : (v * pgsize + x) / pgsize = v := by
    simp only [pgsize] at *
    omega
  have hoff : (v * pgsize + x) % pgsize = x := by
    simp only [pgsize] at *
    omega
  rw [translate, frames, hpage, h, hoff]
  rfl

namespace Sharing

variable {s : Kernel} {z : Slot} {f₀ f₁ : ℕ}

theorem translate_path (h : Sharing s z f₀ f₁) :
    (s.proc initproc).pgdir.translate 0x9FFFF = some (f₁ + 0xFFF) := by
  have haddr : 0x9FFFF = 0x9F * pgsize + 0xFFF := by decide
  rw [haddr, PageDir.translate_of_pte h.shared (by decide)]

/-- The byte that the path consists of, as its owner sees it. -/
theorem load_path (h : Sharing s z f₀ f₁) (mem : Phys) :
    (s.proc initproc).load mem 0x9FFFF = some (mem (f₁ + 0xFFF)) := by
  rw [Proc.load, h.translate_path]
  rfl

theorem loadWord (h : Sharing s z f₀ f₁) :
    (s.proc initproc).loadWord (lastBytePath f₀) 4 = some 0x9FFFF#32 := by
  have htr : ∀ x, x < pgsize → (s.proc initproc).pgdir.translate x = some (f₀ + x) := by
    intro x hx
    have := PageDir.translate_of_pte h.text hx
    rwa [Nat.zero_mul, Nat.zero_add] at this
  simp only [Proc.loadWord, Proc.load]
  rw [htr 4 (by decide), htr 5 (by decide), htr 6 (by decide), htr 7 (by decide)]
  simp [lastBytePath]

theorem lastBytePath_path (h : Sharing s z f₀ f₁) : lastBytePath f₀ (f₁ + 0xFFF) = 0 := by
  have h₀ := h.aligned₀
  have h₁ := h.aligned₁
  simp only [pgsize] at h₀ h₁
  rw [lastBytePath, if_neg (by omega), if_neg (by omega)]
  rfl

/-- A store of the other process to the page. -/
theorem store_page (h : Sharing s z f₀ f₁) (mem : Phys) {x : ℕ} (hx : x < pgsize)
    (b : BitVec 8) :
    store s initproc ⟨z, 0x9F * pgsize + x, b⟩ mem = some (update mem (f₁ + x) b) := by
  have hpage : (0x9F * pgsize + x) / pgsize = 0x9F := by
    simp only [pgsize] at *
    omega
  have hoff : (0x9F * pgsize + x) % pgsize = x := by
    simp only [pgsize] at *
    omega
  rw [store, if_pos ⟨h.ne, h.live⟩]
  dsimp only
  rw [hpage, h.shared', hoff]
  rfl

/-- The path, as `fetchstr` accepts it. -/
def path (h : Sharing s z f₀ f₁) : Str (s.proc initproc) :=
  ⟨0x9FFFF, by rw [h.high]; decide⟩

end Sharing

/-! ## What the kernel does with such a path -/

section Path

variable {p : Proc} {o : Store → Phys → Option Phys} {mem : Phys} {l : List (Access p)}
  {s : Str p} {x : ℕ} {b : BitVec 8}

theorem alone_read (h : p.load mem x = some b) :
    Alone o ⟨Code.read s x, mem, l⟩ ⟨.ret b, mem, l ++ [.read s x]⟩ := by
  have hlook : Alone o ⟨Code.read s x, mem, l⟩
      ⟨Code.orFault (p.load mem x), mem, l ++ [.read s x]⟩ := Alone.look
  rwa [h] at hlook

theorem alone_isSlash (h : p.load mem x = some b) :
    Alone o ⟨Code.isSlash s x, mem, l⟩ ⟨.ret (b == 0x2F#8), mem, l ++ [.read s x]⟩ :=
  (alone_read h).bind

/-- The kernel looks at the first byte of a path. -/
theorem records_namex_first {n : ℕ} {a : Bool} (hb : p.load mem s.addr = some b) :
    Records o ⟨Code.namex (n + 1) s a, mem, l⟩ (.read s s.addr) :=
  .bind ⟨_, alone_isSlash hb, List.mem_append_right l List.mem_cons_self⟩

/-- A path without NUL and slash at its first byte makes the kernel look at the second. -/
theorem records_namex {n : ℕ} {a : Bool} (hb : p.load mem s.addr = some b) (hnul : b ≠ 0)
    (hslash : b ≠ 0x2F#8) :
    Records o ⟨Code.namex (n + 2) s a, mem, l⟩ (.read s (s.addr + 1)) := by
  have hslash' : (b == 0x2F#8) = false := beq_false_of_ne hslash
  -- `skipelem` passes no slash before the element
  have hstart : ∀ l, Alone o ⟨Code.advance (Code.isSlash s) (n + 2) s.addr, mem, l⟩
      ⟨.ret s.addr, mem, l ++ [.read s s.addr]⟩ := by
    intro l
    have h := (alone_isSlash (o := o) (l := l) (s := s) hb).bind
      (f := fun r ↦ if r = true then Code.advance (Code.isSlash s) (n + 1) (s.addr + 1)
        else pure s.addr)
    rw [hslash'] at h
    exact h
  -- the first byte is neither a slash nor NUL, so the element goes on behind it
  have hin : ∀ l, Alone o ⟨Code.inElem s s.addr, mem, l⟩
      ⟨.ret (b != 0), mem, l ++ [.read s s.addr] ++ [.read s s.addr]⟩ := by
    intro l
    have hfst := (alone_read (o := o) (l := l) (s := s) hb).bind (f := fun r ↦
      if r = 0x2F#8 then pure false else Code.read s s.addr >>= fun r ↦ pure (r != 0))
    change Alone o _ ⟨if b = 0x2F#8 then _ else _, _, _⟩ at hfst
    rw [if_neg hslash] at hfst
    exact hfst.trans (alone_read hb).bind
  have hin' : (b != 0) = true := bne_iff_ne.mpr hnul
  rw [hin'] at hin
  refine .of_alone (alone_isSlash hb).bind ?_
  change Records o ⟨Code.skipelem (n + 2) s s.addr >>= _, mem, _⟩ _
  refine .bind (.of_alone (hstart _).bind ?_)
  change Records o ⟨Code.read s s.addr >>= _, mem, _⟩ _
  refine .of_alone (alone_read hb).bind ?_
  change Records o ⟨if b = 0 then _ else _, mem, _⟩ _
  rw [if_neg hnul]
  refine .bind (.of_alone (hin _).bind ?_)
  change Records o ⟨Code.inElem s (s.addr + 1) >>= _, mem, _⟩ _
  exact .bind (.bind .look)

end Path

namespace Sharing

variable {s : Kernel} {z : Slot} {f₀ f₁ : ℕ}

/-- `fetchstr` accepts the path. -/
theorem fetches (h : Sharing s z f₀ f₁) {o : Store → Phys → Option Phys} :
    Alone o ⟨Code.sysChdir 2 0, lastBytePath f₀, []⟩
      ⟨Code.namei 2 h.path >>= fun found ↦ Code.rest found, lastBytePath f₀,
        [.word 4, .check h.path 0 (some 0)]⟩ := by
  have hargint : Alone o ⟨Code.argint 0 0, lastBytePath f₀, []⟩
      ⟨.ret (some 0x9FFFF#32), lastBytePath f₀, [Access.word (p := s.proc initproc) 4]⟩ := by
    have haddr : (0 + 4 + 4 * 0) % 2 ^ 32 = 4 := by decide
    rw [Code.argint, haddr, Code.fetchint, if_neg (by rw [h.low]; decide)]
    have hlook := Alone.look (o := o) (e := fun _ ↦ Access.word (p := s.proc initproc) 4)
      (k := fun mem ↦ Code.orFault (((s.proc initproc).loadWord mem 4).map some))
      (m := lastBytePath f₀) (l := [])
    rwa [h.loadWord] at hlook
  -- the byte is NUL, so `fetchstr` accepts the empty path
  have hscan : Alone o ⟨Code.scan h.path 1 0, lastBytePath f₀, [.word 4]⟩
      ⟨.ret (some 0), lastBytePath f₀, [.word 4, .check h.path 0 (some 0)]⟩ := by
    have hload : (s.proc initproc).load (lastBytePath f₀) (h.path.addr + 0) = some 0 := by
      rw [← h.lastBytePath_path]
      exact h.load_path _
    have hlook := Alone.look (o := o)
      (e := fun mem ↦ .check h.path 0 ((s.proc initproc).load mem (h.path.addr + 0)))
      (k := fun mem ↦ Code.orFault ((s.proc initproc).load mem (h.path.addr + 0)) >>= fun b ↦
        if b = 0 then pure (some 0) else Code.scan h.path 0 1)
      (m := lastBytePath f₀) (l := [.word 4])
    rwa [hload] at hlook
  have hfetch : Alone o ⟨Code.fetchstr 0x9FFFF, lastBytePath f₀, [.word 4]⟩
      ⟨.ret (some (h.path, 0)), lastBytePath f₀, [.word 4, .check h.path 0 (some 0)]⟩ := by
    have hlen : bound (s.proc initproc) 0x9FFFF - 0x9FFFF = 1 := by
      rw [h.high]
      decide
    have hbound : ¬ bound (s.proc initproc) 0x9FFFF ≤ 0x9FFFF := not_le.mpr h.path.lt
    rw [Code.fetchstr, dif_neg hbound, hlen]
    exact hscan.bind
  have hargstr : Alone o ⟨Code.argstr 0 0, lastBytePath f₀, []⟩
      ⟨.ret (some (h.path, 0)), lastBytePath f₀, [.word 4, .check h.path 0 (some 0)]⟩ :=
    hargint.bind.trans hfetch
  exact hargstr.bind

/-- A store to the first byte of the page spares the path. -/
theorem spares_first (h : Sharing s z f₀ f₁) {mem : Phys} {b : BitVec 8} :
    Spares [.word 4, .check h.path 0 (some 0)] mem (f₁ + 0) b := by
  constructor
  · intro s' i hacc htr
    rcases List.mem_cons.mp hacc with hacc | hacc
    · cases hacc
    obtain ⟨rfl, rfl, -⟩ := Access.check.inj (List.mem_singleton.mp hacc)
    have hpa := htr.symm.trans h.translate_path
    rw [Option.some.injEq] at hpa
    omega
  · intro s' i j hmeas
    cases hmeas

/-- **A validated path changes.** The kernel reads the first byte above the user addresses. -/
theorem runs_past (h : Sharing s z f₀ f₁) : ∃ tr c,
    Run (Interference.step (store s initproc)) ⟨Code.sysChdir 2 0, lastBytePath f₀, []⟩ tr c ∧
      .read h.path usertop ∈ c.log := by
  obtain ⟨tr₁, hrun₁, -⟩ := h.fetches (o := store s initproc)
  have hstore := h.store_page (lastBytePath f₀) (x := 0xFFF) (by decide) 0x78#8
  have hload : (s.proc initproc).load (update (lastBytePath f₀) (f₁ + 0xFFF) 0x78#8) h.path.addr
      = some 0x78#8 := by
    have := h.load_path (update (lastBytePath f₀) (f₁ + 0xFFF) 0x78#8)
    rwa [update_self] at this
  obtain ⟨c, ⟨tr₂, hrun₂, -⟩, hread⟩ := Records.bind (f := fun found ↦ Code.rest found)
    (records_namex (o := store s initproc) (l := [.word 4, .check h.path 0 (some 0)]) (n := 0)
      (a := false) hload (by decide) (by decide))
  -- the store comes between the check and the first look of `namei`
  have hmove : Interference.step (store s initproc) (.other ⟨z, 0x9F * pgsize + 0xFFF, 0x78#8⟩)
      ⟨Code.namei 2 h.path >>= fun found ↦ Code.rest found, lastBytePath f₀,
        [.word 4, .check h.path 0 (some 0)]⟩ = some ⟨Code.namei 2 h.path >>= fun found ↦
          Code.rest found, update (lastBytePath f₀) (f₁ + 0xFFF) 0x78#8,
            [.word 4, .check h.path 0 (some 0)]⟩ := by
    rw [Interference.step, hstore]
    rfl
  exact ⟨_, c, (hrun₁.snoc hmove).append hrun₂, hread⟩

end Sharing

/-- A validated path does not stay valid. -/
theorem not_strings_stay_valid : ∃ s, Reach kernelImage s ∧ s.Ready initproc ∧
    ∃ (mem : Phys) (tr : List (Move (Config Phys (Access (s.proc initproc)) ℤ) (Label Store)))
      (c : Config Phys (Access (s.proc initproc)) ℤ),
      Run (Interference.step (store s initproc)) ⟨Code.sysChdir 2 0, mem, []⟩ tr c ∧
        ¬ StringsOk c := by
  obtain ⟨s, z, f₀, f₁, hs, hready, h⟩ := exists_sharing
  obtain ⟨tr, c, hrun, hread⟩ := h.runs_past
  refine ⟨s, hs, hready, lastBytePath f₀, tr, c, hrun, fun hok ↦ ?_⟩
  obtain ⟨-, hlt, -⟩ := hok.inside h.path usertop hread
  exact absurd hlt (not_lt.mpr h.high.le)

/-- A store of the other process elsewhere in the page, after the path has been accepted and before
the kernel reads it again. -/
theorem strings_stay_valid_spared : ∃ s, Reach kernelImage s ∧ s.Ready initproc ∧
    ∃ (mem : Phys) (tr : List (Move (Config Phys (Access (s.proc initproc)) ℤ) (Label Store)))
      (c : Config Phys (Access (s.proc initproc)) ℤ),
      Run (Interference.step (store s initproc)) ⟨Code.sysChdir 2 0, mem, []⟩ tr c ∧
        (∃ mv ∈ tr, ∃ a, mv.act = .other a) ∧ (∃ path, .read path 0x9FFFF ∈ c.log) ∧
        StringsOk c := by
  obtain ⟨s, z, f₀, f₁, hs, hready, h⟩ := exists_sharing
  obtain ⟨tr₁, hrun₁, htr₁⟩ := h.fetches (o := store s initproc)
  have hstore := h.store_page (lastBytePath f₀) (x := 0) (by decide) 0x78#8
  have hload : (s.proc initproc).load (update (lastBytePath f₀) (f₁ + 0) 0x78#8) h.path.addr
      = some 0#8 := by
    have hload := h.load_path (update (lastBytePath f₀) (f₁ + 0) 0x78#8)
    rwa [update_of_ne (by omega), h.lastBytePath_path] at hload
  obtain ⟨c, ⟨tr₂, hrun₂, htr₂⟩, hread⟩ := Records.bind (f := fun found ↦ Code.rest found)
    (records_namex_first (o := store s initproc) (l := [.word 4, .check h.path 0 (some 0)])
      (n := 1) (a := false) hload)
  have hmove : Interference.step (store s initproc) (.other ⟨z, 0x9F * pgsize + 0, 0x78#8⟩)
      ⟨Code.namei 2 h.path >>= fun found ↦ Code.rest found, lastBytePath f₀,
        [.word 4, .check h.path 0 (some 0)]⟩ = some ⟨Code.namei 2 h.path >>= fun found ↦
          Code.rest found, update (lastBytePath f₀) (f₁ + 0) 0x78#8,
            [.word 4, .check h.path 0 (some 0)]⟩ := by
    rw [Interference.step, hstore]
    rfl
  have hall := (hrun₁.snoc hmove).append hrun₂
  refine ⟨s, hs, hready, _, _, c, hall,
    ⟨_, List.mem_append_left _ (List.mem_append_right _ List.mem_cons_self), _, rfl⟩,
    ⟨_, hread⟩, strings_stay_valid s initproc (List.mem_cons_self : _ ∈ Code.stringCalls 2 0) _
      hall fun mv hmv a ha pa hpa ↦ ?_⟩
  rcases List.mem_append.mp hmv with hmv | hmv
  · rcases List.mem_append.mp hmv with hmv | hmv
    · exact absurd ha (htr₁ mv hmv a)
    obtain rfl := List.mem_singleton.mp hmv
    cases ha
    rw [PageDir.translate_of_pte h.shared' (by decide), Option.some.injEq] at hpa
    subst hpa
    exact h.spares_first
  · exact absurd ha (htr₂ mv hmv a)

end CS537.Shm
