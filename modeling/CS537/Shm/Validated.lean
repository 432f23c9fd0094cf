import CS537.Shm.Strings

/-!
# Validated strings

The check of `fetchstr` and the uses of the string are far apart. What a call may rely on: the NUL
that ended an accepted string stays NUL, and while `exec` measures an argument no byte of it up to
that NUL becomes NUL or ceases to be. As long as the stores of the other processes respect this, the
kernel reads within the string and measures it twice with the same result.
-/

open Function Interference Transition

namespace CS537.Shm

variable {L : Link} {p : Proc}

/-! ## Stores of the other processes -/

instance (p : Proc) : Decidable p.Live := inferInstanceAs (Decidable (_ ∨ _ ∨ _))

/-- The process `r` stores the byte `b` at its address `x`. -/
structure Store where
  r : Slot
  x : ℕ
  b : BitVec 8

/-- A store during a system call of the process `q`. -/
def store (s : Kernel) (q : Slot) (a : Store) (mem : Phys) : Option Phys :=
  if a.r ≠ q ∧ (s.proc a.r).Live then
    match (s.proc a.r).pgdir.pte (a.x / pgsize) with
    | some e => if e.w ∧ e.u then some (update mem (e.pa + a.x % pgsize) a.b) else none
    | none => none
  else none

/-- A store goes to the physical address that its page table says. -/
theorem store_eq_some {s : Kernel} {q : Slot} {a : Store} {mem mem' : Phys}
    (h : store s q a mem = some mem') :
    ∃ pa, (s.proc a.r).pgdir.translate a.x = some pa ∧ mem' = update mem pa a.b := by
  rw [store] at h
  obtain ⟨-, h⟩ := Option.ite_none_right_eq_some.mp h
  cases hpte : (s.proc a.r).pgdir.pte (a.x / pgsize) with
  | none =>
    rw [hpte] at h
    cases h
  | some e =>
    rw [hpte] at h
    obtain ⟨-, h⟩ := Option.ite_none_right_eq_some.mp h
    refine ⟨e.pa + a.x % pgsize, ?_, (Option.some.inj h).symm⟩
    rw [PageDir.translate, PageDir.frames, hpte]
    rfl

/-! ## What a call relies on -/

/-- `fetchstr` has accepted the string, with its NUL at the offset `i`. -/
def Accepted (l : List (Access p)) (s : Str p) (i : ℕ) : Prop := .check s i (some 0) ∈ l

/-- The argument that `exec` measures after these accesses. -/
def measuring (l : List (Access p)) : Option (Str p) :=
  l.foldl (fun o e ↦ match e with
    | .measure s => some s
    | .lens _ _ _ => none
    | _ => o) none

/-- Storing `b` at the physical address `pa` spares the NULs that end the accepted strings, and
what is NUL in an argument that is being measured. -/
structure Spares (l : List (Access p)) (mem : Phys) (pa : ℕ) (b : BitVec 8) : Prop where
  nul : ∀ s i, Accepted l s i → p.pgdir.translate (s.addr + i) = some pa → b = 0
  measured : ∀ s i j, measuring l = some s → Accepted l s i → j ≤ i →
    p.pgdir.translate (s.addr + j) = some pa → (b = 0 ↔ mem pa = 0)

/-- The move is the kernel's, or a store that spares the strings. -/
def Sparing (s : Kernel) (mv : Move (Config Phys (Access p) ℤ) (Label Store)) : Prop :=
  ∀ a, mv.act = .other a → ∀ pa, (s.proc a.r).pgdir.translate a.x = some pa →
    Spares mv.src.log mv.src.mem pa a.b

/-- The rely condition. -/
structure Steady (l : List (Access p)) (m m' : Phys) : Prop where
  nul : ∀ s i, Accepted l s i → p.load m (s.addr + i) = some 0 → p.load m' (s.addr + i) = some 0
  measured : ∀ s i j, measuring l = some s → Accepted l s i → j ≤ i →
    (p.load m' (s.addr + j) = some 0 ↔ p.load m (s.addr + j) = some 0)

theorem load_eq_zero_iff {mem : Phys} {x : ℕ} :
    p.load mem x = some 0 ↔ ∃ pa, p.pgdir.translate x = some pa ∧ mem pa = 0 := by
  rw [Proc.load, Option.map_eq_some_iff]

theorem Spares.steady {l : List (Access p)} {mem : Phys} {pa : ℕ} {b : BitVec 8}
    (h : Spares l mem pa b) : Steady l mem (update mem pa b) := by
  constructor
  · intro s i hacc hload
    obtain ⟨pa', htr, hzero⟩ := load_eq_zero_iff.mp hload
    refine load_eq_zero_iff.mpr ⟨pa', htr, ?_⟩
    -- two addresses of the caller may lead to the byte that is stored
    rcases eq_or_ne pa' pa with rfl | hne
    · rw [update_self]
      exact h.nul s i hacc htr
    · rwa [update_of_ne hne]
  · intro s i j hmeas hacc hj
    rw [load_eq_zero_iff, load_eq_zero_iff]
    refine exists_congr fun pa' ↦ and_congr_right fun htr ↦ ?_
    rcases eq_or_ne pa' pa with rfl | hne
    · rw [update_self]
      exact h.measured s i j hmeas hacc hj htr
    · rw [update_of_ne hne]

theorem Sparing.relies {s : Kernel} {q : Slot} {mv : Move (Config Phys (Access p) ℤ) (Label Store)}
    (h : Sparing s mv) (hstep : Interference.step (store s q) mv.act mv.src = some mv.dst) :
    Relies Steady mv := by
  intro a ha
  rw [ha] at hstep
  obtain ⟨mem', hstore, hdst⟩ := Option.map_eq_some_iff.mp hstep
  obtain ⟨pa, htr, rfl⟩ := store_eq_some hstore
  rw [← hdst]
  exact (h a ha pa htr).steady

/-! ## Validity -/

/-- Every accepted string ends in a NUL below its bound, every read of a string lies within an
accepted one, and the lengths that `exec` has measured agree. -/
structure Valid (l : List (Access p)) (mem : Phys) : Prop where
  nul : ∀ s i, Accepted l s i → s.addr + i < bound p s.addr ∧ p.load mem (s.addr + i) = some 0
  read : ∀ s x, .read s x ∈ l → ∃ i, Accepted l s i ∧ s.addr ≤ x ∧ x ≤ s.addr + i
  lens : ∀ s n m, .lens s n m ∈ l → n = m

theorem Accepted.mono {l l' : List (Access p)} {s : Str p} {i : ℕ} (h : Accepted l s i)
    (hl : l <+: l') : Accepted l' s i := hl.subset h

namespace Valid

variable {l : List (Access p)} {mem : Phys}

theorem nil : Valid ([] : List (Access p)) mem :=
  ⟨fun _ _ h ↦ absurd h List.not_mem_nil, fun _ _ h ↦ absurd h List.not_mem_nil,
    fun _ _ _ h ↦ absurd h List.not_mem_nil⟩

theorem stable : Stable Steady (Valid (p := p)) := by
  intro l m m' hsteady h
  exact ⟨fun s i hacc ↦ ⟨(h.nul s i hacc).1, hsteady.nul s i hacc (h.nul s i hacc).2⟩, h.read,
    h.lens⟩

/-- An access that is fine by itself. -/
theorem snoc (h : Valid l mem) {e : Access p}
    (hnul : ∀ s i, e = .check s i (some 0) →
      s.addr + i < bound p s.addr ∧ p.load mem (s.addr + i) = some 0)
    (hread : ∀ s x, e = .read s x → ∃ i, Accepted l s i ∧ s.addr ≤ x ∧ x ≤ s.addr + i)
    (hlens : ∀ s n m, e = .lens s n m → n = m) : Valid (l ++ [e]) mem := by
  have hpre : l <+: l ++ [e] := List.prefix_append _ _
  constructor
  · intro s i hacc
    rcases List.mem_append.mp hacc with hacc | hacc
    · exact h.nul s i hacc
    · exact hnul s i (List.mem_singleton.mp hacc).symm
  · intro s x hx
    rcases List.mem_append.mp hx with hx | hx
    · obtain ⟨i, hacc, hle⟩ := h.read s x hx
      exact ⟨i, hacc.mono hpre, hle⟩
    · obtain ⟨i, hacc, hle⟩ := hread s x (List.mem_singleton.mp hx).symm
      exact ⟨i, hacc.mono hpre, hle⟩
  · intro s n m hmem
    rcases List.mem_append.mp hmem with hmem | hmem
    · exact h.lens s n m hmem
    · exact hlens s n m (List.mem_singleton.mp hmem).symm

theorem word (h : Valid l mem) (x : ℕ) : Valid (l ++ [.word x]) mem :=
  h.snoc (fun _ _ he ↦ by cases he) (fun _ _ he ↦ by cases he) fun _ _ _ he ↦ by cases he

theorem check (h : Valid l mem) {s : Str p} {i : ℕ} (hi : s.addr + i < bound p s.addr) :
    Valid (l ++ [.check s i (p.load mem (s.addr + i))]) mem := by
  refine h.snoc (fun s' i' he ↦ ?_) (fun _ _ he ↦ by cases he) fun _ _ _ he ↦ by cases he
  obtain ⟨rfl, rfl, hload⟩ := Access.check.inj he
  exact ⟨hi, hload⟩

theorem readAt (h : Valid l mem) {s : Str p} {i x : ℕ} (hacc : Accepted l s i) (hx : s.addr ≤ x)
    (hx' : x ≤ s.addr + i) : Valid (l ++ [.read s x]) mem := by
  refine h.snoc (fun _ _ he ↦ by cases he) (fun s' x' he ↦ ?_) fun _ _ _ he ↦ by cases he
  obtain ⟨rfl, rfl⟩ := Access.read.inj he
  exact ⟨i, hacc, hx, hx'⟩

theorem measure (h : Valid l mem) (s : Str p) : Valid (l ++ [.measure s]) mem :=
  h.snoc (fun _ _ he ↦ by cases he) (fun _ _ he ↦ by cases he) fun _ _ _ he ↦ by cases he

theorem lensEq (h : Valid l mem) (s : Str p) (n : ℕ) : Valid (l ++ [.lens s n n]) mem := by
  refine h.snoc (fun _ _ he ↦ by cases he) (fun _ _ he ↦ by cases he) fun s' n' m' he ↦ ?_
  obtain ⟨-, rfl, rfl⟩ := Access.lens.inj he
  rfl

end Valid

/-! ## Code that keeps to the strings -/

/-- From any state whose log extends `l₀` the code keeps to the strings, and it ends in `Q`. -/
def Safe {α : Type} (l₀ : List (Access p)) (c : Code p α) (Q : α → List (Access p) → Prop) : Prop :=
  Triple Steady Valid (fun l m ↦ l₀ <+: l ∧ Valid l m) c
    fun a l m ↦ (l₀ <+: l ∧ Valid l m) ∧ Q a l

theorem stable_base (l₀ : List (Access p)) :
    Stable Steady fun l m ↦ l₀ <+: l ∧ Valid l m :=
  (Stable.log _).and Valid.stable

namespace Safe

variable {α β : Type} {l₀ : List (Access p)} {Q : α → List (Access p) → Prop}
  {S : β → List (Access p) → Prop} {s : Str p} {i x : ℕ}

theorem pure {a : α} (h : ∀ l, l₀ <+: l → Q a l) : Safe l₀ (pure a) Q :=
  Triple.ret (stable_base l₀) fun l _ hl ↦ ⟨hl, h l hl.1⟩

theorem crash : Safe l₀ (Prog.crash : Code p α) Q := Triple.crash

/-- The code as it goes on from a later state. -/
theorem holds {c : Code p α} {l : List (Access p)} {m : Phys} (h : Safe l c Q) (hl : l₀ <+: l)
    (hvalid : Valid l m) :
    Holds Steady Valid (fun a l m ↦ (l₀ <+: l ∧ Valid l m) ∧ Q a l) c l m :=
  (h l m ⟨List.prefix_rfl, hvalid⟩).mono fun _ _ _ hq ↦ ⟨⟨hl.trans hq.1.1, hq.1.2⟩, hq.2⟩

theorem bind {c : Code p α} {f : α → Code p β} (h : Safe l₀ c Q)
    (hf : ∀ a l₁, l₀ <+: l₁ → Q a l₁ → Safe l₁ (f a) S) : Safe l₀ (c >>= f) S :=
  Triple.bind h fun a l _ hq ↦ (hf a l hq.1.1 hq.2).holds hq.1.1 hq.1.2

theorem mono {c : Code p α} {Q' : α → List (Access p) → Prop} (h : Safe l₀ c Q)
    (hQ : ∀ a l, l₀ <+: l → Q a l → Q' a l) : Safe l₀ c Q' :=
  h.conseq (fun _ _ h ↦ h) fun a l _ h ↦ ⟨h.1, hQ a l h.1.1 h.2⟩

theorem elsewhere : Safe l₀ (Code.elsewhere : Code p ℕ) fun _ _ ↦ True :=
  Triple.ask (stable_base l₀) fun _ ↦ Triple.ret (stable_base l₀) fun _ _ h ↦ ⟨h, trivial⟩

theorem look {e : Phys → Access p} {k : Phys → Code p α}
    (hI : ∀ l m, l₀ <+: l → Valid l m → Valid (l ++ [e m]) m)
    (hk : ∀ l m, l₀ <+: l → Valid l m → Safe (l ++ [e m]) (k m) Q) : Safe l₀ (.look e k) Q := by
  refine Triple.look (stable_base l₀) (fun l m h ↦ hI l m h.1 h.2) fun m₀ ↦ ?_
  rintro l m ⟨rfl, l', ⟨hl, hvalid⟩, rfl⟩
  exact (hk l' m hl hvalid).holds (hl.trans (List.prefix_append _ _)) (hI l' m hl hvalid)

theorem orFault {v : Option α} : Safe l₀ (Code.orFault v : Code p α) fun a _ ↦ v = some a := by
  cases v with
  | none => exact crash
  | some a => exact pure fun _ _ ↦ rfl

/-- A read within an accepted string; at its end the byte is NUL. -/
theorem read (hacc : Accepted l₀ s i) (hx : s.addr ≤ x) (hx' : x ≤ s.addr + i) :
    Safe l₀ (Code.read s x) fun b _ ↦ x = s.addr + i → b = 0 := by
  refine look (fun l m hl hvalid ↦ hvalid.readAt (hacc.mono hl) hx hx') fun l m hl hvalid ↦ ?_
  -- the accepted NUL is still there
  refine orFault.mono fun b l' _ hb hend ↦ ?_
  rw [hend, (hvalid.nul s i (hacc.mono hl)).2] at hb
  exact (Option.some.inj hb).symm

end Safe

end CS537.Shm
