import CS537.Shm.Calls
import CS537.Shm.Image

/-!
# Every step has one of the listed effects

One lemma for each system call: in a state that satisfies the invariant, the call comes to one of
the effects, or it panics. Together they describe what a step does to the memory.
-/

open Finset Function Wrapping Holding

namespace CS537.Shm

variable {L : Link}

/-! ## Steps that leave the memory alone -/

theorem wakeOne_mem (chan : Chan) (s : Kernel) (q : Slot) : (wakeOne chan s q).mem = s.mem := by
  rw [wakeOne]
  split
  · rename_i h
    refine mem_setProc ?_
    rw [Proc.mem, Proc.mem, h.1]
    rfl
  · rfl

theorem wakeup1_mem (chan : Chan) (s : Kernel) : (wakeup1 chan s).mem = s.mem :=
  Sweep.foldl_eq (wakeOne_mem chan) slots s

theorem kill_mem (pid : ℤ) (s : Kernel) : (kill pid s).mem = s.mem := by
  rw [kill]
  split
  · rfl
  · split
    · rename_i h
      refine mem_setProc ?_
      rw [Proc.mem, Proc.mem, h]
      rfl
    · exact mem_setProc rfl

theorem reparentOne_mem (q : Slot) (s : Kernel) (p : Slot) : (reparentOne q s p).mem = s.mem := by
  rw [reparentOne]
  split
  · have hparent : (s.setProc p { s.proc p with parent := some initproc }).mem = s.mem :=
      mem_setProc rfl
    simp only
    split
    · rw [wakeup1_mem, hparent]
    · exact hparent
  · rfl

theorem wakeParent_mem (q : Slot) (s : Kernel) : (wakeParent q s).mem = s.mem := by
  rw [wakeParent]
  split
  · exact wakeup1_mem _ s
  · rfl

theorem proc_mem_ne_none {s : Kernel} {q : Slot} :
    s.mem.proc q ≠ none ↔ (s.proc q).state ≠ .unused := by
  change (s.proc q).mem ≠ none ↔ _
  rw [Proc.mem]
  split <;> simp_all

theorem exit_mem {q : Slot} {s t : Kernel} (hq : (s.proc q).state ≠ .unused)
    (h : exit q s = .ok t) : t.mem = s.mem := by
  rw [exit] at h
  split at h
  · cases h
  · have hsweep : (slots.foldl (reparentOne q) (wakeParent q s)).mem = s.mem := by
      rw [Sweep.foldl_eq (reparentOne_mem q), wakeParent_mem]
    obtain rfl := Except.ok.inj h
    have hstate : ((slots.foldl (reparentOne q) (wakeParent q s)).proc q).state ≠ .unused := by
      rw [← proc_mem_ne_none, hsweep, proc_mem_ne_none]
      exact hq
    refine (mem_setState hstate ?_ ?_).trans hsweep
    · simp
    · rfl

/-! ## `growproc` -/

/-- `growproc` with a positive argument. -/
theorem grow_effect {q : Slot} {n : BitVec 32} {s t : Kernel} {c : Option Slot} {newsz : ℕ}
    {g : Grown} (hq : (s.proc q).state ≠ .unused) (hpos : 0 < (s.proc q).sz)
    (hout : AllocOutcome (s.proc q).shmtop (s.proc q).sz newsz s.freelist (s.proc q).pgdir g)
    (ht : t = (s.setFreelist g.freelist).setProc q { s.proc q with
      pgdir := g.pgdir
      sz := if g.ret = 0 then (s.proc q).sz else g.ret }) :
    Effect L c (.sbrk q n) s.mem t.mem := by
  have hproc := mem_proc hq
  subst ht
  -- `growproc` keeps the size when `allocuvm` returns 0
  cases hout with
  | high hlt =>
    rw [if_pos rfl]
    exact (mem_setProc (s := s) rfl) ▸ .idle _ _
  | shrink hle hlt =>
    rw [if_neg (by simpa using hpos.ne')]
    exact (mem_setProc (s := s) rfl) ▸ .idle _ _
  | grown hle hge hmap hlen =>
    have hne : newsz ≠ 0 := by omega
    rw [if_neg hne, mem_setProc_of_ne (by exact hq)]
    exact .grown hproc hle hge hmap hlen
  | full hle hlt hlen hframe htab hpte hcount =>
    rw [if_pos rfl, mem_setProc_of_ne (by exact hq)]
    exact .growFull hproc hframe htab hpte hcount

/-- `growproc` with a negative argument. -/
theorem shrink_effect {q : Slot} {n : BitVec 32} {s t : Kernel} {c : Option Slot} {newsz : ℕ}
    {m : Freelist} {d : PageDir} (hq : (s.proc q).state ≠ .unused)
    (hlt : newsz < (s.proc q).sz)
    (hout : Freed L (rounds (pageUp newsz) (s.proc q).sz) (pageUp newsz) s.freelist
      (s.proc q).pgdir m d)
    (ht : t = (s.setFreelist m).setProc q { s.proc q with
      pgdir := d
      sz := if newsz = 0 then (s.proc q).sz else newsz }) :
    Effect L c (.sbrk q n) s.mem t.mem := by
  subst ht
  rw [mem_setProc_of_ne (by exact hq)]
  exact .shrunk (mem_proc hq) hlt hout

/-- The two ways in which `growproc` ends come to the same update. -/
theorem setProc_ret {s t : Kernel} {q : Slot} {p : Proc} {ret : ℕ} {r : ℤ}
    (h : (if ret = 0 then pure (s.setProc q p, -1)
      else pure ((s.setProc q p).setProc q { (s.setProc q p).proc q with sz := ret }, 0) :
        Except String (Kernel × ℤ)) = .ok (t, r)) :
    t = s.setProc q { p with sz := if ret = 0 then p.sz else ret } := by
  split at h
  · obtain ⟨rfl, -⟩ := Prod.mk.inj (Except.ok.inj h)
    rw [if_pos ‹_›]
  · obtain ⟨rfl, -⟩ := Prod.mk.inj (Except.ok.inj h)
    rw [if_neg ‹_›, s.setProc_self, Kernel.setProc, Kernel.setProc, Kernel.setProc, update_idem]

theorem growproc_effect {q : Slot} {n : BitVec 32} {s t : Kernel} {r : ℤ} {c : Option Slot}
    (hok : MemOk L s.mem) (hq : (s.proc q).state ≠ .unused)
    (h : growproc L q n s = .ok (t, r)) : Effect L c (.sbrk q n) s.mem t.mem := by
  have hp := hok.procs q _ (mem_proc hq)
  rw [growproc] at h
  simp only at h
  split at h
  · obtain ⟨g, hg, h⟩ := bind_eq_ok h
    obtain ⟨g', hg', hout⟩ :=
      allocuvm_outcome (((s.proc q).sz + n.toNat) % 2 ^ 32) hp.space hok.free
      hp.top_le (fun v h1 h2 h3 ↦ hp.absent h3 h1 h2)
    obtain rfl : g' = g := Except.ok.inj (hg'.symm.trans hg)
    exact grow_effect hq hp.sz_pos hout (setProc_ret h)
  split at h
  · obtain ⟨⟨m, d, ret⟩, hd, h⟩ := bind_eq_ok h
    by_cases hlt : ((s.proc q).sz + n.toNat) % 2 ^ 32 < (s.proc q).sz
    · obtain ⟨m', d', hd', hout⟩ := deallocuvm_freed (L := L) s.freelist hp.space hlt
        (hp.sz_le.trans hp.top_le)
      obtain ⟨rfl, rfl, rfl⟩ : m' = m ∧ d' = d ∧ ((s.proc q).sz + n.toNat) % 2 ^ 32 = ret := by
        simpa using Except.ok.inj (hd'.symm.trans hd)
      exact shrink_effect hq hlt hout (setProc_ret h)
    · -- a request that wraps does nothing
      rw [deallocuvm, if_pos (by omega)] at hd
      obtain ⟨rfl, rfl, rfl⟩ : s.freelist = m ∧ (s.proc q).pgdir = d ∧ (s.proc q).sz = ret := by
        simpa using Except.ok.inj hd
      have hmem : t.mem = s.mem := by
        rw [setProc_ret h, ite_self]
        exact mem_setProc rfl
      exact hmem ▸ .idle _ _
  · obtain ⟨rfl, -⟩ := Prod.mk.inj (Except.ok.inj h)
    exact .idle _ _

/-! ## `shmgetat` -/

/-- A counter that has not become less has been raised by one. -/
theorem MemOk.count_succ {s : Kernel} {k : Key} (hok : MemOk L s.mem)
    (hle : s.shmemCount k ≤ toInt32 (s.shmemCount k + 1)) :
    toInt32 (s.shmemCount k + 1) = s.shmemCount k + 1 ∧ s.shmemCount k + 1 < 2 ^ 31 := by
  have hnonneg : (s.mem.attached k : ℤ) ≤ s.shmemCount k := hok.attached_le k
  have heq := toInt32_succ (by omega) hle
  exact ⟨heq, heq ▸ toInt32_lt _⟩

theorem attach_effect {fresh : Bool} {q : Slot} {k : Key} {n : ℕ} {key num : BitVec 32}
    {s t : Kernel} {r : ℤ} {c : Option Slot} (hok : MemOk L s.mem)
    (hq : (s.proc q).state ≠ .unused) (hk : (s.proc q).shmemVaddr k = 0)
    (hfresh : fresh = true → s.shmemCount k = 0 ∧ n ≤ shmemMaxPages)
    (hold : fresh = false → s.shmemCount k ≠ 0 ∧ n = s.shmemPages k) (hn : 0 < n)
    (hrises : s.Rises t) (h : attach fresh q k n s = .ok (t, r)) :
    Effect L c (.shmgetat q key num) s.mem t.mem := by
  have hout := attach_outcome fresh hok hq (fun hf ↦ (hfresh hf).2) hold hn
  rw [h] at hout
  cases hout with
  | refused _ => exact .idle _ _
  | attached hroom hrow hframe htab hpte htq hother hcount hpages hpaddr =>
    have hmem := mem_of_proc (s := s) (t := t) (q := q) (by rw [htq]; exact hq) hother
    have hle := hrises k
    rw [hcount, update_self] at hle
    have hsucc := hok.count_succ hle
    rw [hmem, htq, hcount, hpages, hpaddr, hsucc.1]
    exact .attached (mem_proc hq) hk hfresh hold hn hroom hrow hframe htab hpte hsucc.2

theorem toInt_pos {x : BitVec 32} (h : 0 < x.toInt) : x.toInt = x.toNat ∧ x.toNat ≠ 0 := by
  have := x.isLt
  rw [BitVec.toInt_eq_toNat_cond] at h ⊢
  split at h <;> split <;> omega

theorem shmgetat_effect {q : Slot} {key num : BitVec 32} {s t : Kernel} {r : ℤ} {c : Option Slot}
    (hok : MemOk L s.mem) (hq : (s.proc q).state ≠ .unused) (hrises : s.Rises t)
    (h : shmgetat q key num s = .ok (t, r)) : Effect L c (.shmgetat q key num) s.mem t.mem := by
  have hidle : ∀ x : ℤ, (pure (s, x) : Except String (Kernel × ℤ)) = .ok (t, r) →
      Effect L c (.shmgetat q key num) s.mem t.mem := by
    intro x hx
    obtain ⟨rfl, -⟩ := Prod.mk.inj (Except.ok.inj hx)
    exact .idle _ _
  rw [shmgetat] at h
  split at h
  · exact hidle _ h
  split at h
  · rename_i hkey
    simp only at h
    split at h
    · exact hidle _ h
    rename_i hv
    have hv' : (s.proc q).shmemVaddr ⟨key.toNat, hkey⟩ = 0 := by simpa using hv
    split at h
    · rename_i hc
      split at h
      · rename_i hnum
        obtain ⟨h1, h2⟩ := toInt_pos hnum.1
        have h3 := hnum.2
        rw [h1] at h3
        exact attach_effect hok hq hv' (fun _ ↦ ⟨hc, by exact_mod_cast h3⟩) (by simp) (by omega)
          hrises h
      · exact hidle _ h
    · rename_i hc
      have hpos : 0 < s.mem.count ⟨key.toNat, hkey⟩ := by
        have := hok.attached_le ⟨key.toNat, hkey⟩
        have hne : s.mem.count ⟨key.toNat, hkey⟩ ≠ 0 := hc
        omega
      exact attach_effect hok hq hv' (by simp) (fun _ ↦ ⟨hc, rfl⟩) (hok.region _ hpos).1
        hrises h
  · exact hidle _ h

/-! ## `fork` -/

/-- Counters that have not become less have been raised by one where the region is attached. -/
theorem Raised.count_eq {q np : Slot} {s t : Kernel} (hok : MemOk L s.mem) (h : Raised q np s t)
    (hrises : s.Rises t) :
    t.shmemCount = (fun k ↦ s.shmemCount k + attachedTo (s.proc q).shmemVaddr k) ∧
      ∀ k, s.shmemCount k + attachedTo (s.proc q).shmemVaddr k < 2 ^ 31 := by
  have hone : ∀ k, t.shmemCount k = s.shmemCount k + attachedTo (s.proc q).shmemVaddr k ∧
      s.shmemCount k + attachedTo (s.proc q).shmemVaddr k < 2 ^ 31 := by
    intro k
    have hle := hrises k
    rw [h.count, raiseCount] at hle ⊢
    by_cases hv : (s.proc q).shmemVaddr k = 0
    · rw [if_neg fun h ↦ h.2 hv, attachedTo, if_neg fun h ↦ h hv, Nat.cast_zero, add_zero]
      exact ⟨rfl, hok.count_lt k⟩
    · rw [if_pos ⟨mem_keys k, hv⟩] at hle ⊢
      rw [attachedTo_of_ne hv]
      exact hok.count_succ hle
  exact ⟨funext fun k ↦ (hone k).1, fun k ↦ (hone k).2⟩

theorem fork_effect {q : Slot} {s t : Kernel} {x : ℤ} {c : Option Slot} (hok : MemOk L s.mem)
    (hq : (s.proc q).state ≠ .unused) (hrises : s.Rises t) (h : fork L q s = .ok (t, x)) :
    Effect L c (.fork q) s.mem t.mem := by
  rcases fork_outcome hok hq with ⟨u, hu, hmem, -⟩ | ⟨np, r, m, hfl, hnp, hout⟩
  · rw [hu] at h
    obtain ⟨rfl, -⟩ := Prod.mk.inj (Except.ok.inj h)
    exact hmem ▸ .idle _ _
  rw [h] at hout
  cases hout with
  | fail hlen hraised hunused hshrunk =>
    -- the slot of the child is UNUSED again
    have hself : update s.mem.proc np none = s.mem.proc :=
      update_eq_self_iff.mpr (mem_of_unused hnp).symm
    obtain ⟨hcount, hlt⟩ := hraised.count_eq hok hrises
    rw [mem_of_proc_unused hunused hraised.other, hself, hcount, hraised.pages, hraised.paddr]
    exact .forkFail (mem_proc hq) (mem_of_unused hnp) hfl hlen
      (by rw [← hfl] at hshrunk; exact hshrunk) hlt
  | copied hcopied hraised htnp =>
    have hmem := mem_of_proc (s := s) (t := t) (q := np) (by rw [htnp]; simp) hraised.other
    obtain ⟨hcount, hlt⟩ := hraised.count_eq hok hrises
    rw [hmem, htnp, hcount, hraised.pages, hraised.paddr]
    exact .forked (mem_proc hq) (mem_of_unused hnp) hfl hcopied hlt

/-! ## `wait` -/

theorem LastRef.pos {v : Key → ℕ} {count : Key → ℤ} {k : Key} (h : LastRef v count k) :
    0 < count k := by
  rw [h.2]
  decide

/-- The loop over the keys in terms of the memory. -/
theorem dropKeys_leave {v : Key → ℕ} {s : Kernel} (hcount : ∀ k, s.Counted v k)
    (h : ∀ k, 0 < s.shmemCount k → ∀ i, i < s.shmemPages k → L.Valid (s.shmemPaddr k i)) :
    ∃ l, keys.foldlM (dropKey L v) s = .ok { s with
        freelist := l ++ s.freelist
        shmemCount := (s.mem.leave v).count
        shmemPaddr := (s.mem.leave v).paddr } ∧ LeaveFrees L s.mem v l := by
  obtain ⟨l, hl, hfrees⟩ := dropKeys_dropped (L := L) (v := v) nodup_keys s
    (fun k _ ↦ hcount k) (fun k _ hk i hi ↦ h k hk.pos i hi)
  refine ⟨l, hl.trans ?_, fun f ↦ ?_, hfrees.valid⟩
  · have hcount : (fun k ↦ s.shmemCount k - ((if k ∈ keys then attachedTo v k else 0 : ℕ) : ℤ))
        = (s.mem.leave v).count := by
      funext k
      rw [if_pos (mem_keys k)]
      rfl
    have hpaddr : droppedPaddr v keys s = (s.mem.leave v).paddr := by
      funext k i
      rw [droppedPaddr]
      exact if_congr (by simp [mem_keys, Kernel.mem]) rfl rfl
    rw [hcount, hpaddr]
  · rw [hfrees.count, toFinset_keys]
    rfl

/-- Reaping a child does not panic. -/
theorem reap_ok {q z : Slot} {s : Kernel} (hok : MemOk L s.mem) (hq : (s.proc q).state ≠ .unused)
    (hz : (s.proc z).state ≠ .unused) :
    ∃ l l' t, reap L q z s = .ok t ∧ LeaveFrees L s.mem (s.proc z).shmemVaddr l ∧
      DirFrees L (s.proc q).sz (s.proc z).pgdir l' ∧
      freevm L (s.proc q).sz ((s.proc z).kstack :: s.freelist) (s.proc z).pgdir
        = .ok (l' ++ (s.proc z).kstack :: s.freelist) ∧
      t = { s with
        freelist := l ++ (l' ++ (s.proc z).kstack :: s.freelist)
        proc := update s.proc z { s.proc z with
          kstack := 0
          state := .unused
          pid := 0
          parent := none
          killed := false }
        shmemCount := (s.mem.leave (s.proc z).shmemVaddr).count
        shmemPaddr := (s.mem.leave (s.proc z).shmemVaddr).paddr } := by
  have hp := hok.procs q _ (mem_proc hq)
  have hch := hok.procs z _ (mem_proc hz)
  have hstack : L.Valid (s.proc z).kstack := hch.kstack
  have hsz : (s.proc q).sz ≤ usertop := hp.sz_le.trans hp.top_le
  have hspace : Space L (s.proc z).pgdir := hch.space
  obtain ⟨l', hfree, hvalid', hcount'⟩ :=
    freevm_freed ((s.proc z).kstack :: s.freelist) hspace hsz
  obtain ⟨l, hdrop, hfrees⟩ := dropKeys_leave (L := L) (v := (s.proc z).shmemVaddr)
    (s := (s.setFreelist (l' ++ (s.proc z).kstack :: s.freelist)).setProc z { s.proc z with
      kstack := 0
      state := .unused
      pid := 0
      parent := none
      killed := false }) (fun k hk ↦ ⟨hok.count_pos (mem_proc hz) hk, hok.count_lt k⟩)
    (fun k hk ↦ (hok.region k hk).2)
  refine ⟨l, l', _, ?_, ⟨hfrees.count, hfrees.valid⟩, ⟨hcount', hvalid'⟩, hfree, rfl⟩
  rw [reap, kfree_of_valid hstack, ok_bind, hfree, ok_bind,
    detachKeys_eq (v := (s.proc z).shmemVaddr)]
  · exact hdrop
  · rw [Kernel.setProc_self]

theorem reap_effect {q z : Slot} {s t : Kernel} {b : Bool} (hok : MemOk L s.mem)
    (hq : (s.proc q).state ≠ .unused) (hz : (s.proc z).state ≠ .unused)
    (h : reap L q z s = .ok t) :
    Effect L (some z) (.wait q) s.mem (t.setProc q { t.proc q with waiting := b }).mem := by
  obtain ⟨l, l', t', ht', hleave, hdir, -, heq⟩ := reap_ok hok hq hz
  obtain rfl := Except.ok.inj (ht'.symm.trans h)
  have hmem : (t'.setProc q { t'.proc q with waiting := b }).mem = t'.mem := mem_setProc rfl
  have hother : ∀ u, u ≠ z → t'.proc u = s.proc u := fun u hu ↦ by
    rw [heq]
    exact update_of_ne hu _ _
  have hunused : (t'.proc z).state = .unused := by
    rw [heq]
    simp
  rw [hmem, mem_of_proc_unused hunused hother, heq]
  exact .reaped rfl (mem_proc hq) (mem_proc hz) hleave hdir

theorem wait_effect {q : Slot} {s t : Kernel} {x : Option ℤ} (hok : MemOk L s.mem)
    (hq : (s.proc q).state = .running) (h : wait L q s = .ok (t, x)) :
    Effect L (zombieChild q s) (.wait q) s.mem t.mem := by
  have hq' : (s.proc q).state ≠ .unused := by
    rw [hq]
    simp
  rw [wait] at h
  cases hz : zombieChild q s with
  | some z =>
    have hzstate := zombieChild_state hz
    rw [hz] at h
    obtain ⟨u, hu, h⟩ := bind_eq_ok h
    obtain ⟨rfl, -⟩ := Prod.mk.inj (Except.ok.inj h)
    exact reap_effect hok hq' (by rw [hzstate]; simp) hu
  | none =>
    rw [hz] at h
    simp only at h
    split at h
    · obtain ⟨rfl, -⟩ := Prod.mk.inj (Except.ok.inj h)
      have hsleep : (sleep (.proc q) q (s.setProc q { s.proc q with waiting := true })).mem
          = s.mem := by
        refine (mem_setState ?_ ?_ ?_).trans (mem_setProc (s := s) rfl)
        · rw [Kernel.setProc_self]
          exact hq'
        · simp
        · rw [Kernel.setProc_self]
          rfl
      exact hsleep ▸ .idle _ _
    · obtain ⟨rfl, -⟩ := Prod.mk.inj (Except.ok.inj h)
      have hmem : (s.setProc q { s.proc q with waiting := false }).mem = s.mem := mem_setProc rfl
      exact hmem ▸ .idle _ _

/-! ## `exec` -/

/-- The frames of an abandoned image are not more than those it was made from. -/
theorem ImageOwn.shrunk {m₀ : Freelist} {im : Image} {sz : ℕ} {l : List ℕ} (h : ImageOwn L m₀ im)
    (hsz : sz ≤ usertop) (hl : DirFrees L sz im.pgdir l) : Shrunk L m₀ (l ++ im.freelist) := by
  refine ⟨fun f ↦ ?_, fun f hf ↦ (List.mem_append.mp hf).elim (hl.valid f) (h.valid f)⟩
  have h1 := h.count f
  have h2 := hl.count f
  have h3 := held_mono (range_subset_range.mpr (pageUp_le hsz)) im.pgdir.frames f
  rw [List.count_append]
  omega

theorem ImageOk.built {shmtop : ℕ} {m₀ m₁ : Freelist} {im : Image} (h : ImageOk L shmtop m₀ m₁ im)
    (hpos : 0 < im.sz) (htop : shmtop ≤ usertop) :
    Built L shmtop im.sz m₀ im.freelist im.pgdir := by
  obtain ⟨l, hpages⟩ := h.pages
  have hle := pageUp_le (h.sz_le.trans htop)
  refine ⟨h.own.space, hpos, h.sz_le, fun v h1 h2 ↦ hpages.gap h1 h2, fun f ↦ ?_, h.own.valid⟩
  have h1 := h.own.count f
  have hzero : held (Ico (pageUp im.sz) 160) im.pgdir.frames f = 0 := by
    refine held_eq_zero_of_none (fun q hq ↦ ?_) f
    rw [mem_Ico] at hq
    rw [PageDir.frames, hpages.gap hq.1 hq.2]
    rfl
  have h2 := held_split (le_refl (pageUp im.sz)) hle im.pgdir.frames f
  rw [Ico_self, held_empty, hzero] at h2
  omega

/-- Committing to an image does not panic. -/
theorem commit_ok (im : Image) {q : Slot} {s : Kernel} (hok : MemOk L s.mem)
    (hq : (s.proc q).state ≠ .unused) (hsz : im.sz ≤ usertop) :
    ∃ l l' t, commit L q im s = .ok t ∧ LeaveFrees L s.mem (s.proc q).shmemVaddr l ∧
      DirFrees L im.sz (s.proc q).pgdir l' ∧
      t = { s with
        freelist := l' ++ (l ++ im.freelist)
        proc := update s.proc q { s.proc q with
          pgdir := im.pgdir
          sz := im.sz
          shmemVaddr := fun _ ↦ 0
          shmtop := usertop }
        shmemCount := (s.mem.leave (s.proc q).shmemVaddr).count
        shmemPaddr := (s.mem.leave (s.proc q).shmemVaddr).paddr } := by
  have hspace : Space L (s.proc q).pgdir := (hok.procs q _ (mem_proc hq)).space
  let p₁ : Proc := { s.proc q with shmtop := usertop }
  obtain ⟨l, hdrop, hfrees⟩ := dropKeys_leave (L := L) (v := (s.proc q).shmemVaddr)
    (s := (s.setFreelist im.freelist).setProc q p₁)
    (fun k hk ↦ ⟨hok.count_pos (mem_proc hq) hk, hok.count_lt k⟩)
    (fun k hk ↦ (hok.region k hk).2)
  obtain ⟨l', hfree, hvalid', hcount'⟩ := freevm_freed (l ++ im.freelist) hspace hsz
  refine ⟨l, l', _, ?_, ⟨hfrees.count, hfrees.valid⟩, ⟨hcount', hvalid'⟩, rfl⟩
  -- the loop runs over all keys, so no address is left
  have hclear : clearKeys (s.proc q).shmemVaddr keys = fun _ ↦ 0 := by
    funext k
    exact if_pos (mem_keys k)
  rw [commit]
  change (keys.foldlM (leaveOne L q) ((s.setFreelist im.freelist).setProc q p₁) >>= _) = _
  rw [leaveKeys_eq q nodup_keys, Kernel.setProc_self]
  change (Except.map _ (keys.foldlM (dropKey L (s.proc q).shmemVaddr)
    ((s.setFreelist im.freelist).setProc q p₁)) >>= _) = _
  rw [hdrop]
  change (Except.ok _ >>= _) = _
  rw [ok_bind]
  simp only [Kernel.setProc_self]
  change (freevm L im.sz (l ++ im.freelist) (s.proc q).pgdir >>= _) = _
  rw [hfree, ok_bind]
  change Except.ok _ = Except.ok _
  simp only [Kernel.setProc, Kernel.setFreelist, update_idem]
  rw [show p₁.shmemVaddr = (s.proc q).shmemVaddr from rfl, hclear]
  rfl

theorem exec_effect {q : Slot} {file : Option File} {argv : List Arg} {s t : Kernel} {x : ℤ}
    {tr : List Event} {c : Option Slot} (hok : MemOk L s.mem) (hq : (s.proc q).state ≠ .unused)
    (h : exec L q file argv s = .ok (t, x, tr)) :
    Effect L c (.exec q file argv) s.mem t.mem := by
  have hproc := mem_proc hq
  have hp := hok.procs q _ hproc
  have htop : (s.proc q).shmtop ≤ usertop := hp.top_le
  have hsz : (s.proc q).sz ≤ usertop := hp.sz_le.trans hp.top_le
  have hidle : (pure (s, -1, []) : Except String (Kernel × ℤ × List Event)) = .ok (t, x, tr) →
      Effect L c (.exec q file argv) s.mem t.mem := by
    intro hx
    obtain ⟨rfl, -⟩ := Prod.mk.inj (Except.ok.inj hx)
    exact .idle _ _
  cases file with
  | none => exact hidle h
  | some f =>
  rw [exec] at h
  split at h
  · exact hidle h
  rcases setupkvm_outcome L s.freelist with ⟨hsetup, -⟩ | ⟨m₁, d, hsetup, hfresh⟩
  · rw [hsetup] at h
    obtain ⟨rfl, -⟩ := Prod.mk.inj (Except.ok.inj h)
    have hnone : Shrunk L s.mem.freelist [] := ⟨by simp, by simp⟩
    exact .execFail hnone
  rw [hsetup, ok_bind] at h
  obtain ⟨⟨im, b⟩, hbuild, h⟩ := bind_eq_ok h
  obtain ⟨hown, hbuilt⟩ :=
    buildImage_memory (hfresh.imageOk hok.free (s.proc q).shmtop) htop hp.top_aligned hbuild
  -- an image that could not be built is freed up to the old size
  cases b with
  | false =>
    obtain ⟨l, hfree, hvalid, hcount⟩ := freevm_freed im.freelist hown.space hsz
    simp only [hfree, ok_bind] at h
    obtain ⟨rfl, -⟩ := Prod.mk.inj (Except.ok.inj h)
    exact .execFail (hown.shrunk hsz ⟨hcount, hvalid⟩)
  | true =>
    obtain ⟨himage, hpos⟩ := hbuilt rfl
    obtain ⟨l, l', u, hu, hleave, hdir, heq⟩ :=
      commit_ok im hok hq (himage.sz_le.trans htop)
    simp only [hu, ok_bind] at h
    obtain ⟨rfl, -⟩ := Prod.mk.inj (Except.ok.inj h)
    have hother : ∀ r, r ≠ q → u.proc r = s.proc r := fun r hr ↦ by
      rw [heq]
      exact update_of_ne hr _ _
    have huq : u.proc q = { s.proc q with
        pgdir := im.pgdir
        sz := im.sz
        shmemVaddr := fun _ ↦ 0
        shmtop := usertop } := by
      rw [heq]
      exact update_self ..
    rw [mem_of_proc (s := s) (t := u) (q := q) (by rw [huq]; exact hq) hother, huq, heq]
    exact .execed hproc (himage.built hpos htop) hleave hdir

/-! ## All steps -/

theorem toOption_eq_some {α : Type} {x : Except String α} {a : α} (h : x.toOption = some a) :
    x = .ok a := by
  cases x with
  | error e => cases h
  | ok b => exact congrArg _ (Option.some.inj h)

theorem map_fst_eq_ok {α β : Type} {x : Except String (α × β)} {a : α}
    (h : (x.map Prod.fst).toOption = some a) : ∃ b, x = .ok (a, b) := by
  cases x with
  | error e => cases h
  | ok y => exact ⟨y.2, congrArg _ (Prod.ext (Option.some.inj h) rfl)⟩

theorem Kernel.Ready.ne_unused {s : Kernel} {q : Slot} (h : s.Ready q) :
    (s.proc q).state ≠ .unused := by
  rw [h.1]
  simp

/-- **What a step can do to the memory.** -/
theorem step_effect {a : Act} {s t : Kernel} (hok : MemOk L s.mem) (h : coreStep L a s = some t) :
    Effect L (a.victim s) a s.mem t.mem := by
  cases a with
  | dispatch q =>
    obtain ⟨hq, h⟩ := Option.ite_none_right_eq_some.mp h
    have hmem : (dispatch q s).mem = s.mem :=
      mem_setState (by rw [hq]; simp) (by simp) rfl
    rw [← Option.some.inj h, hmem]
    exact .idle _ _
  | yield q =>
    obtain ⟨hq, h⟩ := Option.ite_none_right_eq_some.mp h
    have hmem : (yield q s).mem = s.mem := mem_setState hq.ne_unused (by simp) rfl
    rw [← Option.some.inj h, hmem]
    exact .idle _ _
  | sleep q chan =>
    obtain ⟨hq, h⟩ := Option.ite_none_right_eq_some.mp h
    have hmem : (sleep (.other chan) q s).mem = s.mem := mem_setState hq.ne_unused (by simp) rfl
    rw [← Option.some.inj h, hmem]
    exact .idle _ _
  | wakeup chan =>
    rw [← Option.some.inj h, wakeup1_mem]
    exact .idle _ _
  | kill q pid =>
    obtain ⟨-, h⟩ := Option.ite_none_right_eq_some.mp h
    rw [← Option.some.inj h, kill_mem]
    exact .idle _ _
  | fork q =>
    obtain ⟨h, hrises⟩ := Option.filter_eq_some_iff.mp h
    obtain ⟨hq, h⟩ := Option.ite_none_right_eq_some.mp h
    obtain ⟨x, h⟩ := map_fst_eq_ok h
    exact fork_effect hok hq.ne_unused (of_decide_eq_true hrises) h
  | exec q file argv =>
    obtain ⟨hq, h⟩ := Option.ite_none_right_eq_some.mp h
    obtain ⟨⟨x, tr⟩, h⟩ := map_fst_eq_ok h
    exact exec_effect hok hq.ne_unused h
  | exit q =>
    obtain ⟨hq, h⟩ := Option.ite_none_right_eq_some.mp h
    rw [exit_mem hq.ne_unused (toOption_eq_some h)]
    exact .idle _ _
  | wait q =>
    obtain ⟨hq, h⟩ := Option.ite_none_right_eq_some.mp h
    obtain ⟨x, h⟩ := map_fst_eq_ok h
    exact wait_effect hok hq h
  | sbrk q n =>
    obtain ⟨hq, h⟩ := Option.ite_none_right_eq_some.mp h
    obtain ⟨x, h⟩ := map_fst_eq_ok h
    exact growproc_effect hok hq.ne_unused h
  | shmgetat q key num =>
    obtain ⟨h, hrises⟩ := Option.filter_eq_some_iff.mp h
    obtain ⟨hq, h⟩ := Option.ite_none_right_eq_some.mp h
    obtain ⟨x, h⟩ := map_fst_eq_ok h
    exact shmgetat_effect hok hq.ne_unused (of_decide_eq_true hrises) h

end CS537.Shm
