import CS537.Shm.ExecSafe

/-!
# Calls that keep within bounds

`step` and `coreStep` agree on the moves of `InBounds`: an `exec` that gets to no segment reaching
beyond the image, a `fork` or a `shmgetat` while no counter stands at the largest `int`. A run of
such moves is a run of both machines, and a state that it reaches is reachable in both.
-/

open Function Transition

namespace CS537.Shm

variable {L : Link} {s t : Kernel} {q : Slot} {a : Act}

/-! ## Conditions on a move -/

/-- The segments that `exec` gets to are safe to load. -/
def SafeExec (s : Kernel) (q : Slot) (file : Option File) : Prop :=
  ∀ f, file = some f → f.IsElf → 13 ≤ s.freelist.length →
    HeadersSafe (s.proc q).shmtop f (s.freelist.drop 13) f.elfhdr.phnum f.elfhdr.phoff 0

/-- The call neither wraps a counter nor stores outside a new image. -/
def InBounds (m : Move Kernel Act) : Prop :=
  match m.act with
  | .fork _ | .shmgetat _ _ _ => ∀ k, m.src.shmemCount k + 1 < 2 ^ 31
  | .exec q file _ => SafeExec m.src q file
  | _ => True

/-- A `wait` whose caller is larger than `shmtop` of the child that it reaps. -/
def OversizedReap (m : Move Kernel Act) : Prop :=
  ∃ q z, m.act = .wait q ∧ zombieChild q m.src = some z ∧
    (m.src.proc z).shmtop < (m.src.proc q).sz

/-- A move that leaves the memory of the kernel sound. -/
def Careful (m : Move Kernel Act) : Prop := InBounds m ∧ ¬OversizedReap m

/-- Reachability by careful moves. -/
def Sound (L : Link) (s : Kernel) : Prop := ReachableBy (step L) (Booted L) Careful s

theorem Plain.inBounds {m : Move Kernel Act} (h : Plain m) : InBounds m := by
  rcases m with ⟨s, a, t⟩
  cases a with
  | fork | shmgetat => exact h
  | exec | wait => exact h.elim
  | _ => trivial

theorem Plain.careful {m : Move Kernel Act} (h : Plain m) : Careful m := by
  refine ⟨h.inBounds, ?_⟩
  rintro ⟨q, z, ha, -⟩
  rw [Plain, ha] at h
  exact h

/-! ## `exec` -/

theorem strays_eq_nil {taken : List ℕ} {tr : List Event} (h : Contained taken tr) :
    strays taken tr = [] := by
  induction tr generalizing taken with
  | nil => rfl
  | cons e tr ih =>
    cases e with
    | alloc r => exact ih h
    | store pa off len =>
      rw [strays, if_neg fun hstray ↦ hstray.2 (h.1 hstray.1)]
      exact ih h.2

/-- A safe call stores only into the new image. -/
theorem SafeExec.contained {file : Option File} {argv : List Arg} {x : ℤ} {tr : List Event}
    (hsafe : SafeExec s q file) (hok : MemOk L s.mem) (hq : (s.proc q).state ≠ .unused)
    (h : exec L q file argv s = .ok (t, x, tr)) : Contained [] tr := by
  cases file with
  | none =>
    obtain ⟨-, hret⟩ := Prod.mk.inj (Except.ok.inj h)
    obtain ⟨-, rfl⟩ := Prod.mk.inj hret
    trivial
  | some f =>
    obtain ⟨t', x', tr', h', -, hcont⟩ :=
      (exec_safe_iff_headers hok hq f argv).mpr fun helf hlen ↦ hsafe f rfl helf hlen
    obtain ⟨-, heq⟩ := Prod.mk.inj (Except.ok.inj (h.symm.trans h'))
    obtain ⟨-, rfl⟩ := Prod.mk.inj heq
    exact hcont

theorem execStray_of_contained {file : Option File} {argv : List Arg} {x : ℤ} {tr : List Event}
    (h : exec L q file argv s = .ok (t, x, tr)) (hcont : Contained [] tr) :
    execStray L q file argv s = some t := by
  rw [execStray, h]
  simp [strays_eq_nil hcont]

theorem PageDir.store_of_ne {d : PageDir} {pa : ℕ} (h : ∀ x r, d.tab x = some r → r ≠ pa)
    (l : List (BitVec 8)) : d.store pa l = d := by
  have hpde : (fun x ↦ (d.pde x).map fun t ↦ if t.frame = pa then t.store l else t) = d.pde := by
    funext x
    cases hx : d.pde x with
    | none => rfl
    | some t =>
      have hne := h x t.frame (by rw [PageDir.tab, hx]; rfl)
      exact congrArg some (if_neg hne)
  rw [PageDir.store, hpde]

/-- There is no page table below the kernel. -/
theorem suffer_of_low (hok : MemOk L s.mem) (file : Option File) {e : Event} (he : e.Low) :
    s.suffer file e = s := by
  cases e with
  | alloc r => rfl
  | store pa off len =>
    have hle : pa + len ≤ 0x100000 := he
    have hproc : (fun z ↦ if (s.proc z).state = .unused then s.proc z
        else { s.proc z with
          pgdir := (s.proc z).pgdir.store pa (file.elim [] fun f ↦ f.slice off len) })
        = s.proc := by
      funext z
      split
      · rfl
      · rename_i hz
        rw [PageDir.store_of_ne fun x r hr ↦ ?_]
        rintro rfl
        obtain ⟨-, hend, -⟩ := (hok.procs z _ (mem_proc hz)).space.valid_tab x r hr
        have h1 := L.text_lt
        have h2 := L.data_le
        omega
    rw [Kernel.suffer, hproc]

/-- Stores below the kernel leave no trace in what is modelled. -/
theorem execStray_of_low {file : Option File} {argv : List Arg} {x : ℤ} {tr : List Event}
    (hok : MemOk L s.mem) (hq : (s.proc q).state ≠ .unused)
    (h : exec L q file argv s = .ok (t, x, tr)) (hlow : ∀ e ∈ strays [] tr, e.Low) :
    execStray L q file argv s = some t := by
  have hok' : MemOk L t.mem := (exec_effect (c := none) hok hq h).memOk hok
  have hfold : ∀ l : List Event, (∀ e ∈ l, e.Low) → l.foldl (Kernel.suffer file) t = t := by
    intro l
    induction l with
    | nil => exact fun _ ↦ rfl
    | cons e l ih =>
      intro hl
      rw [List.forall_mem_cons] at hl
      rw [List.foldl_cons, suffer_of_low hok' file hl.1, ih hl.2]
  rw [execStray, h]
  have hbears : ∀ e ∈ strays [] tr, s.Bears x e := fun e he ↦ .inl (hlow e he)
  simp only
  rw [if_pos hbears, hfold _ hlow]

theorem exec_of_execStray {file : Option File} {argv : List Arg}
    (h : execStray L q file argv s = some t) :
    ∃ u x tr, exec L q file argv s = .ok (u, x, tr) := by
  rw [execStray] at h
  split at h
  · cases h
  · rename_i u x tr hexec
    exact ⟨u, x, tr, hexec⟩

/-! ## Counters -/

/-- A round changes the free list, a row of frames and the page table. -/
theorem attachPage_count {fresh : Bool} {k : Key} {i vaddr : ℕ}
    (h : attachPage fresh q k i vaddr s = .ok t) : t.shmemCount = s.shmemCount := by
  rw [attachPage] at h
  split at h
  · split at h
    · cases h
    · simp only [pure_bind] at h
      obtain ⟨⟨m, d, ok⟩, -, h⟩ := bind_eq_ok h
      obtain rfl := Except.ok.inj h
      rfl
  · simp only [pure_bind] at h
    obtain ⟨⟨m, d, ok⟩, -, h⟩ := bind_eq_ok h
    obtain rfl := Except.ok.inj h
    rfl

theorem attachPages_count {fresh : Bool} {k : Key} {n i vaddr : ℕ}
    (h : attachPages fresh q k n i vaddr s = .ok t) : t.shmemCount = s.shmemCount := by
  induction n generalizing i vaddr s with
  | zero =>
    obtain rfl := Except.ok.inj h
    rfl
  | succ n ih =>
    obtain ⟨u, hu, h⟩ := bind_eq_ok h
    rw [ih h, attachPage_count hu]

theorem MemOk.count_nonneg (hok : MemOk L s.mem) (k : Key) : 0 ≤ s.shmemCount k := by
  have h : (s.mem.attached k : ℤ) ≤ s.shmemCount k := hok.attached_le k
  omega

theorem attach_rises {fresh : Bool} {k : Key} {n : ℕ} {x : ℤ} (hok : MemOk L s.mem)
    (hcount : ∀ k, s.shmemCount k + 1 < 2 ^ 31) (h : attach fresh q k n s = .ok (t, x)) :
    s.Rises t := by
  rw [attach] at h
  simp only at h
  split at h
  · obtain ⟨rfl, -⟩ := Prod.mk.inj (Except.ok.inj h)
    exact fun _ ↦ le_rfl
  · obtain ⟨u, hu, h⟩ := bind_eq_ok h
    obtain ⟨rfl, -⟩ := Prod.mk.inj (Except.ok.inj h)
    intro j
    change _ ≤ update u.shmemCount k _ j
    rw [attachPages_count hu]
    by_cases hj : j = k
    · have hnonneg := hok.count_nonneg k
      rw [hj, update_self, Wrapping.toInt32_of_range (by omega) (hcount k)]
      omega
    · rw [update_of_ne hj]

theorem shmgetat_rises {key num : BitVec 32} {x : ℤ} (hok : MemOk L s.mem)
    (hcount : ∀ k, s.shmemCount k + 1 < 2 ^ 31) (h : shmgetat q key num s = .ok (t, x)) :
    s.Rises t := by
  have hidle : ∀ y : ℤ, (pure (s, y) : Except String (Kernel × ℤ)) = .ok (t, x) → s.Rises t := by
    intro y hy
    obtain ⟨rfl, -⟩ := Prod.mk.inj (Except.ok.inj hy)
    exact fun _ ↦ le_rfl
  rw [shmgetat] at h
  simp only at h
  split at h
  · exact hidle _ h
  split at h
  · split at h
    · exact hidle _ h
    split at h
    · split at h
      · exact attach_rises hok hcount h
      · exact hidle _ h
    · exact attach_rises hok hcount h
  · exact hidle _ h

theorem fork_rises {x : ℤ} (hok : MemOk L s.mem) (hq : (s.proc q).state ≠ .unused)
    (hcount : ∀ k, s.shmemCount k + 1 < 2 ^ 31) (h : fork L q s = .ok (t, x)) : s.Rises t := by
  have hfits : s.CountsFit q := fun k _ ↦ hcount k
  rcases fork_outcome hok hq with ⟨u, hu, hmem, -⟩ | ⟨np, r, m, -, -, hout⟩
  · obtain ⟨rfl, -⟩ := Prod.mk.inj (Except.ok.inj (hu.symm.trans h))
    exact fun k ↦ (congrFun (congrArg Mem.count hmem) k).ge
  · rw [h] at hout
    cases hout with
    | fail _ hraised => exact hraised.rises hok hfits
    | copied _ hraised => exact hraised.rises hok hfits

/-! ## The two machines -/

/-- Within bounds the two machines do the same. -/
theorem step_core (hok : MemOk L s.mem) (hb : InBounds ⟨s, a, t⟩) (h : step L a s = some t) :
    coreStep L a s = some t := by
  cases a with
  | exec q file argv =>
    obtain ⟨hq, hexec⟩ := Option.ite_none_right_eq_some.mp h
    obtain ⟨u, x, tr, hu⟩ := exec_of_execStray hexec
    have hsame := execStray_of_contained hu (SafeExec.contained hb hok hq.ne_unused hu)
    obtain rfl := Option.some.inj (hsame.symm.trans hexec)
    exact (if_pos hq).trans (by rw [hu]; rfl)
  | fork q =>
    obtain ⟨hq, hfork⟩ := Option.ite_none_right_eq_some.mp h
    obtain ⟨x, hx⟩ := map_fst_eq_ok hfork
    exact Option.filter_eq_some_iff.mpr ⟨h, decide_eq_true (fork_rises hok hq.ne_unused hb hx)⟩
  | shmgetat q key num =>
    obtain ⟨hq, hcall⟩ := Option.ite_none_right_eq_some.mp h
    obtain ⟨x, hx⟩ := map_fst_eq_ok hcall
    exact Option.filter_eq_some_iff.mpr ⟨h, decide_eq_true (shmgetat_rises hok hb hx)⟩
  | _ => exact h

/-- Apart from `exec`, a move of the smaller machine is one of the larger. -/
theorem step_of_core (ha : ∀ q file argv, a ≠ .exec q file argv) (h : coreStep L a s = some t) :
    step L a s = some t := by
  cases a with
  | exec q file argv => exact absurd rfl (ha q file argv)
  | fork | shmgetat => exact (Option.filter_eq_some_iff.mp h).1
  | _ => exact h

/-- **A run within bounds is a run of both machines.** -/
theorem Booted.run_core {s₀ : Kernel} {tr : List (Move Kernel Act)} (h₀ : Booted L s₀)
    (hrun : Run (step L) s₀ tr s) (hb : ∀ m ∈ tr, InBounds m) : Run (coreStep L) s₀ tr s := by
  induction hrun with
  | nil => exact .nil _
  | @snoc s t tr a _ hstep ih =>
    have hcore := ih fun m hm ↦ hb m (List.mem_append_left _ hm)
    have hreach : Reach L s := ⟨s₀, tr, h₀, hcore, fun _ _ ↦ trivial⟩
    exact hcore.snoc (step_core hreach.memOk (hb ⟨s, a, t⟩ (by simp)) hstep)

theorem run_of_plain {s₀ : Kernel} {tr : List (Move Kernel Act)} (hrun : Run (coreStep L) s₀ tr s)
    (hplain : ∀ m ∈ tr, Plain m) : Run (step L) s₀ tr s := by
  induction hrun with
  | nil => exact .nil _
  | @snoc s t tr a _ hstep ih =>
    refine (ih fun m hm ↦ hplain m (List.mem_append_left _ hm)).snoc (step_of_core ?_ hstep)
    rintro q file argv rfl
    exact hplain ⟨s, .exec q file argv, t⟩ (by simp)

theorem Sound.reach (h : Sound L s) : Reach L s := by
  obtain ⟨s₀, tr, h₀, hrun, hcareful⟩ := h
  exact ⟨s₀, tr, h₀, h₀.run_core hrun fun m hm ↦ (hcareful m hm).1, fun _ _ ↦ trivial⟩

theorem Unreaped.sound (h : Unreaped L s) : Sound L s := by
  obtain ⟨s₀, tr, h₀, hrun, hplain⟩ := h
  exact ⟨s₀, tr, h₀, run_of_plain hrun hplain, fun m hm ↦ (hplain m hm).careful⟩

end CS537.Shm
