import CS537.Shm.Validated

/-!
# System calls with string arguments

Every function that looks at a string, one by one, keeps to it, and so do the calls. In the end: a
run in which the stores of the other processes spare the accepted strings, and one in which a
process that shares the region takes the NUL of a path away.
-/

open Function Interference Transition

namespace CS537.Shm

variable {p : Proc} {l₀ : List (Access p)} {s : Str p} {i x n fuel : ℕ}

/-! ## `string.c` and `fs.c` -/

namespace Safe

theorem done {α : Type} {a : α} : Safe l₀ (Pure.pure a) fun _ _ ↦ True := pure fun _ _ ↦ trivial

theorem memmove (hacc : Accepted l₀ s i) (hx : s.addr ≤ x) (hn : x + n ≤ s.addr + i + 1) :
    Safe l₀ (Code.memmove s x n) fun _ _ ↦ True := by
  induction n generalizing x l₀ with
  | zero => exact done
  | succ n ih =>
    rw [Code.memmove]
    refine (read hacc hx (by omega)).bind fun b l₁ hl _ ↦ ?_
    exact ih (hacc.mono hl) (by omega) (by omega)

theorem safestrcpy (hacc : Accepted l₀ s i) (hx : s.addr ≤ x) (hx' : x ≤ s.addr + i) :
    Safe l₀ (Code.safestrcpy s x n) fun _ _ ↦ True := by
  induction n generalizing x l₀ with
  | zero => exact done
  | succ n ih =>
    rw [Code.safestrcpy]
    refine (read hacc hx hx').bind fun b l₁ hl hb ↦ ?_
    split
    · exact done
    -- a byte that is not NUL is not the last
    · rename_i hne
      have hlt : x ≠ s.addr + i := fun h ↦ hne (hb h)
      exact ih (hacc.mono hl) (by omega) (by omega)

/-- A loop whose test fails at the end of the string stays within it. -/
theorem advance {test : ℕ → Code p Bool} (hacc : Accepted l₀ s i) (hx : s.addr ≤ x)
    (hx' : x ≤ s.addr + i)
    (htest : ∀ l₁ y, Accepted l₁ s i → s.addr ≤ y → y ≤ s.addr + i →
      Safe l₁ (test y) fun b _ ↦ b = true → y ≠ s.addr + i) :
    Safe l₀ (Code.advance test fuel x) fun y _ ↦ x ≤ y ∧ y ≤ s.addr + i := by
  induction fuel generalizing x l₀ with
  | zero => exact crash
  | succ fuel ih =>
    rw [Code.advance]
    refine (htest l₀ x hacc hx hx').bind fun b l₁ hl hb ↦ ?_
    split
    · have hlt := hb ‹_›
      -- the test has passed, so the string goes on
      refine (ih (hacc.mono hl) (by omega) (by omega)).mono fun y _ _ hy ↦ ?_
      exact ⟨by omega, hy.2⟩
    · exact pure fun _ _ ↦ ⟨le_rfl, hx'⟩

theorem isSlash (hacc : Accepted l₀ s i) (hx : s.addr ≤ x) (hx' : x ≤ s.addr + i) :
    Safe l₀ (Code.isSlash s x) fun b _ ↦ b = true → x ≠ s.addr + i := by
  refine (read hacc hx hx').bind fun b l₁ _ hb ↦ pure fun _ _ hslash hend ↦ ?_
  rw [hb hend] at hslash
  cases hslash

theorem inElem (hacc : Accepted l₀ s i) (hx : s.addr ≤ x) (hx' : x ≤ s.addr + i) :
    Safe l₀ (Code.inElem s x) fun b _ ↦ b = true → x ≠ s.addr + i := by
  refine (read hacc hx hx').bind fun b l₁ hl _ ↦ ?_
  split
  · exact pure fun _ _ h ↦ by cases h
  · refine (read (hacc.mono hl) hx hx').bind fun b' l₂ _ hb ↦ pure fun _ _ hin hend ↦ ?_
    rw [hb hend] at hin
    cases hin

theorem skipelem (hacc : Accepted l₀ s i) (hx : s.addr ≤ x) (hx' : x ≤ s.addr + i) :
    Safe l₀ (Code.skipelem fuel s x) fun r _ ↦ ∀ y, r = some y → s.addr ≤ y ∧ y ≤ s.addr + i := by
  refine (advance hacc hx hx' fun _ _ ↦ isSlash).bind fun start l₁ hl₁ hstart ↦ ?_
  replace hacc := hacc.mono hl₁
  -- the slashes before the element are skipped
  refine (read hacc (by omega) hstart.2).bind fun b l₂ hl₂ _ ↦ ?_
  replace hacc := hacc.mono hl₂
  split
  · exact pure fun _ _ _ h ↦ by cases h
  · refine (advance hacc (by omega) hstart.2 fun _ _ ↦ inElem).bind fun path l₃ hl₃ hpath ↦ ?_
    replace hacc := hacc.mono hl₃
    -- the element ends at or before the NUL, and is copied without it
    refine (memmove hacc (by omega) (by omega)).bind fun _ l₄ hl₄ _ ↦ ?_
    replace hacc := hacc.mono hl₄
    refine (advance hacc (by omega) hpath.2 fun _ _ ↦ isSlash).bind fun path' l₅ _ hpath' ↦ ?_
    refine pure fun _ _ y hy ↦ ?_
    cases hy
    exact ⟨by omega, hpath'.2⟩

theorem atLast {parent : Bool} (hacc : Accepted l₀ s i) (hx : s.addr ≤ x) (hx' : x ≤ s.addr + i) :
    Safe l₀ (Code.atLast s parent x) fun _ _ ↦ True := by
  rw [Code.atLast]
  split
  · exact (read hacc hx hx').bind fun _ _ _ _ ↦ done
  · exact done

theorem namexLoop {parent : Bool} (hacc : Accepted l₀ s i) (hx : s.addr ≤ x)
    (hx' : x ≤ s.addr + i) : Safe l₀ (Code.namexLoop fuel s parent n x) fun _ _ ↦ True := by
  induction n generalizing x l₀ with
  | zero => exact crash
  | succ n ih =>
    rw [Code.namexLoop]
    refine (skipelem hacc hx hx').bind fun r l₁ hl₁ hr ↦ ?_
    replace hacc := hacc.mono hl₁
    split
    · exact done
    · rename_i path
      obtain ⟨hpath, hpath'⟩ := hr path rfl
      refine elsewhere.bind fun _ l₂ hl₂ _ ↦ ?_
      replace hacc := hacc.mono hl₂
      split
      · exact done
      · refine (atLast hacc hpath hpath').bind fun _ l₃ hl₃ _ ↦ ?_
        replace hacc := hacc.mono hl₃
        split
        · exact done
        · refine elsewhere.bind fun _ l₄ hl₄ _ ↦ ?_
          split
          · exact done
          · exact ih (hacc.mono hl₄) hpath hpath'

theorem namex {parent : Bool} (hacc : Accepted l₀ s i) :
    Safe l₀ (Code.namex fuel s parent) fun _ _ ↦ True :=
  (isSlash hacc le_rfl (by omega)).bind fun _ _ hl _ ↦
    namexLoop (hacc.mono hl) le_rfl (by omega)

/-! ## `exec.c` -/

theorem copyout {va : ℕ} (hacc : Accepted l₀ s i) (hx : s.addr ≤ x)
    (hn : x + n ≤ s.addr + i + 1) : Safe l₀ (Code.copyout s fuel va x n) fun _ _ ↦ True := by
  induction fuel generalizing va x n l₀ with
  | zero => exact crash
  | succ fuel ih =>
    rw [Code.copyout]
    split
    · exact done
    · refine elsewhere.bind fun _ l₁ hl₁ _ ↦ ?_
      replace hacc := hacc.mono hl₁
      split
      · exact done
      · refine (memmove hacc hx (by omega)).bind fun _ l₂ hl₂ _ ↦ ?_
        exact ih (hacc.mono hl₂) (by omega) (by omega)

theorem lastElem {last : ℕ} (hacc : Accepted l₀ s i) (hx : s.addr ≤ x) (hx' : x ≤ s.addr + i)
    (hlast : s.addr ≤ last) (hlast' : last ≤ s.addr + i) :
    Safe l₀ (Code.lastElem s fuel last x) fun y _ ↦ s.addr ≤ y ∧ y ≤ s.addr + i := by
  induction fuel generalizing x last l₀ with
  | zero => exact crash
  | succ fuel ih =>
    rw [Code.lastElem]
    refine (read hacc hx hx').bind fun b l₁ hl₁ hb ↦ ?_
    replace hacc := hacc.mono hl₁
    split
    · exact pure fun _ _ ↦ ⟨hlast, hlast'⟩
    · rename_i hne
      have hlt : x ≠ s.addr + i := fun h ↦ hne (hb h)
      refine (isSlash hacc hx hx').bind fun b l₂ hl₂ _ ↦ ?_
      replace hacc := hacc.mono hl₂
      split
      · exact ih hacc (by omega) (by omega) (by omega) (by omega)
      · exact ih hacc (by omega) (by omega) hlast hlast'

end Safe

/-! ## The two calls of `strlen` -/

section Measuring

variable {l : List (Access p)} {z : ℕ → Prop} {k : ℕ}

@[simp] theorem measuring_measure : measuring (l ++ [.measure s]) = some s := by
  simp [measuring]

@[simp] theorem measuring_read {s' : Str p} : measuring (l ++ [.read s' x]) = measuring l := by
  simp [measuring]

/-- The string is being measured, and `z` tells which of its bytes are NUL. -/
def Measured (l₁ : List (Access p)) (s : Str p) (i : ℕ) (z : ℕ → Prop) (l : List (Access p))
    (m : Phys) : Prop :=
  (l₁ <+: l ∧ Valid l m) ∧ measuring l = some s ∧
    ∀ j, j ≤ i → (p.load m (s.addr + j) = some 0 ↔ z j)

theorem stable_measured (hacc : Accepted l₀ s i) : Stable Steady (Measured l₀ s i z) := by
  rintro l m m' hsteady ⟨hbase, hmeas, hz⟩
  refine ⟨stable_base l₀ l m m' hsteady hbase, hmeas, fun j hj ↦ ?_⟩
  rw [hsteady.measured s i j hmeas (hacc.mono hbase.1) hj]
  exact hz j hj

/-- The first NUL of the string. -/
def FirstNul (z : ℕ → Prop) (i k : ℕ) : Prop := k ≤ i ∧ z k ∧ ∀ j, j < k → ¬ z j

theorem FirstNul.unique {k' : ℕ} (h : FirstNul z i k) (h' : FirstNul z i k') : k = k' := by
  obtain ⟨-, hk, hbelow⟩ := h
  obtain ⟨-, hk', hbelow'⟩ := h'
  rcases lt_trichotomy k k' with hlt | heq | hlt
  · exact absurd hk (hbelow' k hlt)
  · exact heq
  · exact absurd hk' (hbelow k' hlt)

/-- While a string is being measured, `strlen` finds its first NUL. -/
theorem triple_strlen (hacc : Accepted l₀ s i) (hn : n ≤ i) (hbelow : ∀ j, j < n → ¬ z j) :
    Triple Steady Valid (Measured l₀ s i z) (Code.strlen s fuel n)
      fun k l m ↦ Measured l₀ s i z l m ∧ FirstNul z i k := by
  -- `z` was read off when the measuring began, and the rely condition keeps it
  induction fuel generalizing n with
  | zero => exact Triple.crash
  | succ fuel ih =>
    rw [Code.strlen]
    refine Triple.look (stable_measured hacc) (fun l m h ↦ ?_) fun m₀ ↦ ?_
    · exact h.1.2.readAt (hacc.mono h.1.1) (by omega) (by omega)
    rintro l m ⟨rfl, l', ⟨⟨hl, hvalid⟩, hmeas, hz⟩, rfl⟩
    have hmeasured : Measured l₀ s i z (l' ++ [.read s (s.addr + n)]) m :=
      ⟨⟨hl.trans (List.prefix_append _ _), hvalid.readAt (hacc.mono hl) (by omega) (by omega)⟩,
        by rw [measuring_read, hmeas], hz⟩
    beta_reduce
    cases hload : p.load m (s.addr + n) with
    | none => exact True.intro
    | some b =>
      have hzn := hz n hn
      rw [hload, Option.some.injEq] at hzn
      change Holds _ _ _ (if b = 0 then pure n else Code.strlen s fuel (n + 1)) _ m
      split
      · exact Triple.ret (stable_measured hacc)
          (fun l m h ↦ ⟨h, hn, hzn.mp ‹_›, hbelow⟩) _ m hmeasured
      · rename_i hne
        -- the accepted NUL is still there, so the loop does not pass it
        have hend : n ≠ i := by
          rintro rfl
          rw [(hvalid.nul s n (hacc.mono hl)).2] at hload
          exact hne (Option.some.inj hload).symm
        refine ih (by omega) (fun j hj ↦ ?_) _ m hmeasured
        rcases Nat.lt_succ_iff_lt_or_eq.mp hj with hlt | rfl
        · exact hbelow j hlt
        · exact fun h ↦ hne (hzn.mpr h)

end Measuring

namespace Safe

theorem pushArg {sp : ℕ} (hacc : Accepted l₀ s i) :
    Safe l₀ (Code.pushArg fuel s sp) fun _ _ ↦ True := by
  refine Triple.look (stable_base l₀) (fun l m h ↦ h.2.measure s) fun m₀ ↦ ?_
  have hbelow : ∀ j, j < 0 → ¬ p.load m₀ (s.addr + j) = some 0 := fun j hj ↦ by omega
  rintro _ m ⟨rfl, l, ⟨hl, hvalid⟩, rfl⟩
  -- which bytes are NUL now is what both calls of `strlen` will find
  have hmeasured : Measured l₀ s i (fun j ↦ p.load m (s.addr + j) = some 0)
      (l ++ [.measure s]) m :=
    ⟨⟨hl.trans (List.prefix_append _ _), hvalid.measure s⟩, measuring_measure, fun _ _ ↦ Iff.rfl⟩
  refine (triple_strlen hacc (Nat.zero_le i) hbelow).bind (fun k l' m' hk ↦ ?_) _ m hmeasured
  refine (triple_strlen hacc (Nat.zero_le i) hbelow).bind (fun k' l₁ m₁ hk' ↦ ?_) l' m' hk.1
  obtain ⟨⟨⟨hl₁, hvalid₁⟩, -⟩, hfirst⟩ := hk'
  -- both have found the first NUL
  obtain rfl := hk.2.unique hfirst
  refine holds (l := l₁) ?_ hl₁ hvalid₁
  refine look (fun l m _ hvalid ↦ hvalid.lensEq s k) fun l m hl _ ↦ ?_
  have hacc' := (hacc.mono hl₁).mono (hl.trans (List.prefix_append _ [.lens s k k]))
  have hki := hfirst.1
  refine (copyout hacc' le_rfl (by omega)).bind fun _ _ _ _ ↦ ?_
  split
  · exact done
  · exact done

theorem pushArgs {argv : List (Str p)} {argc sp : ℕ} (hacc : ∀ s ∈ argv, ∃ i, Accepted l₀ s i) :
    Safe l₀ (Code.pushArgs fuel argv argc sp) fun _ _ ↦ True := by
  induction argv generalizing argc sp l₀ with
  | nil => exact done
  | cons s argv ih =>
    rw [Code.pushArgs]
    split
    · exact done
    · obtain ⟨i, hi⟩ := hacc s List.mem_cons_self
      refine (pushArg hi).bind fun r l₁ hl _ ↦ ?_
      cases r with
      | none => exact done
      | some sp =>
        refine ih fun s' hs' ↦ ?_
        obtain ⟨i', hi'⟩ := hacc s' (List.mem_cons_of_mem _ hs')
        exact ⟨i', hi'.mono hl⟩

theorem exec {argv : List (Str p)} (hpath : Accepted l₀ s i)
    (hargv : ∀ s ∈ argv, ∃ i, Accepted l₀ s i) :
    Safe l₀ (Code.exec fuel s argv) fun _ _ ↦ True := by
  refine (namex hpath).bind fun found l₁ hl₁ _ ↦ ?_
  split
  · exact done
  refine elsewhere.bind fun _ l₂ hl₂ _ ↦ ?_
  split
  · exact done
  refine elsewhere.bind fun sz l₃ hl₃ _ ↦ ?_
  have hl := (hl₁.trans hl₂).trans hl₃
  have hargv₃ : ∀ s ∈ argv, ∃ i, Accepted l₃ s i := fun s hs ↦
    (hargv s hs).imp fun _ hi ↦ hi.mono hl
  refine (pushArgs hargv₃).bind fun r l₄ hl₄ _ ↦ ?_
  replace hpath := hpath.mono (hl.trans hl₄)
  cases r with
  | none => exact done
  | some sp =>
    refine elsewhere.bind fun _ l₅ hl₅ _ ↦ ?_
    replace hpath := hpath.mono hl₅
    split
    · exact done
    refine (lastElem hpath le_rfl (by omega) le_rfl (by omega)).bind fun last l₆ hl₆ hlast ↦ ?_
    refine (safestrcpy (hpath.mono hl₆) hlast.1 hlast.2).bind fun _ _ _ _ ↦ ?_
    exact done

/-! ## `syscall.c` -/

theorem fetchint {addr : ℕ} : Safe l₀ (Code.fetchint addr) fun _ _ ↦ True := by
  rw [Code.fetchint]
  split
  · exact done
  · exact look (fun l m _ hvalid ↦ hvalid.word addr) fun _ _ _ _ ↦ orFault.mono
      fun _ _ _ _ ↦ trivial

theorem scan (hn : s.addr + i + n ≤ bound p s.addr) :
    Safe l₀ (Code.scan s n i) fun r l ↦ ∀ len, r = some len → Accepted l s len := by
  induction n generalizing i l₀ with
  | zero => exact pure fun _ _ _ h ↦ by cases h
  | succ n ih =>
    rw [Code.scan]
    refine look (fun l m _ hvalid ↦ hvalid.check (by omega)) fun l m _ _ ↦ ?_
    refine orFault.bind fun b l' hl' hb ↦ ?_
    split
    · rename_i hzero
      -- the check that has just been logged is the one that accepts the string
      refine pure fun l'' hl'' len hlen ↦ ?_
      obtain rfl := Option.some.inj hlen
      refine (hl'.trans hl'').subset (List.mem_append_right _ (List.mem_singleton.mpr ?_))
      rw [hb, hzero]
    · exact ih (by omega)

theorem fetchstr {addr : ℕ} :
    Safe l₀ (Code.fetchstr addr) fun r l ↦ ∀ s len, r = some (s, len) → Accepted l s len := by
  rw [Code.fetchstr]
  split
  · exact pure fun _ _ _ _ h ↦ by cases h
  · rename_i h
    refine (scan (s := ⟨addr, not_le.mp h⟩) (by dsimp only; omega)).bind fun r l₁ _ hr ↦ ?_
    refine pure fun l hl s len hs ↦ ?_
    obtain ⟨len', hlen, heq⟩ := Option.map_eq_some_iff.mp hs
    cases heq
    exact (hr len hlen).mono hl

theorem argint {esp : ℕ} : Safe l₀ (Code.argint esp n) fun _ _ ↦ True := fetchint

theorem argstr {esp : ℕ} :
    Safe l₀ (Code.argstr esp n) fun r l ↦ ∀ s len, r = some (s, len) → Accepted l s len := by
  refine argint.bind fun r l₁ _ _ ↦ ?_
  cases r with
  | none => exact pure fun _ _ _ _ h ↦ by cases h
  | some addr => exact fetchstr

/-! ## `sysfile.c` -/

theorem fetchArgs {uargv : ℕ} : Safe l₀ (Code.fetchArgs uargv n i)
    fun r l ↦ ∀ argv, r = some argv → ∀ s ∈ argv, ∃ i, Accepted (p := p) l s i := by
  induction n generalizing i l₀ with
  | zero => exact pure fun _ _ _ h ↦ by cases h
  | succ n ih =>
    rw [Code.fetchArgs]
    refine fetchint.bind fun r l₁ _ _ ↦ ?_
    cases r with
    | none => exact pure fun _ _ _ h ↦ by cases h
    | some uarg =>
      dsimp only
      split
      · refine pure fun _ _ argv h s hs ↦ ?_
        obtain rfl := Option.some.inj h
        cases hs
      · refine fetchstr.bind fun r l₂ _ hr ↦ ?_
        cases r with
        | none => exact pure fun _ _ _ h ↦ by cases h
        | some arg =>
          obtain ⟨s, len⟩ := arg
          refine ih.bind fun r l₃ hl₃ hargs ↦ pure fun l hl argv h s' hs' ↦ ?_
          obtain ⟨argv', hargv', rfl⟩ := Option.map_eq_some_iff.mp h
          rcases List.mem_cons.mp hs' with rfl | hs'
          · exact ⟨len, (hr s' len rfl).mono (hl₃.trans hl)⟩
          · exact (hargs argv' hargv' s' hs').imp fun _ hi ↦ hi.mono hl

theorem rest {found : Bool} : Safe l₀ (Code.rest (p := p) found) fun _ _ ↦ True := by
  rw [Code.rest]
  split
  · exact elsewhere.bind fun _ _ _ _ ↦ done
  · exact done

/-- A walk along an accepted path, and the rest of the call. -/
theorem namex_rest {parent : Bool} (hacc : Accepted l₀ s i) :
    Safe l₀ (Code.namex fuel s parent >>= fun found ↦ Code.rest found) fun _ _ ↦ True :=
  (namex hacc).bind fun _ _ _ _ ↦ rest

/-- A call with a string argument: what it does with the string it may do after any accesses. -/
theorem withStr {esp : ℕ} {f : Str p → Code p ℤ}
    (hf : ∀ s i l, l₀ <+: l → Accepted l s i → Safe l (f s) fun _ _ ↦ True) :
    Safe l₀ (Code.argstr esp n >>= fun r ↦ match r with
      | none => Pure.pure (-1)
      | some (s, _) => f s) fun _ _ ↦ True := by
  refine argstr.bind fun r l₁ hl₁ hr ↦ ?_
  cases r with
  | none => exact done
  | some arg =>
    obtain ⟨s, len⟩ := arg
    exact hf s len l₁ hl₁ (hr s len rfl)

/-- A call with an integer argument. -/
theorem withInt {esp : ℕ} {f : BitVec 32 → Code p ℤ}
    (hf : ∀ v l, l₀ <+: l → Safe l (f v) fun _ _ ↦ True) :
    Safe l₀ (Code.argint esp n >>= fun r ↦ match r with
      | none => Pure.pure (-1)
      | some v => f v) fun _ _ ↦ True := by
  refine argint.bind fun r l₁ hl₁ _ ↦ ?_
  cases r with
  | none => exact done
  | some v => exact hf v l₁ hl₁

theorem sysExec {esp : ℕ} : Safe l₀ (Code.sysExec (p := p) fuel esp) fun _ _ ↦ True := by
  refine withStr fun path i l₁ _ hpath ↦ withInt fun uargv l₂ hl₂ ↦ ?_
  refine fetchArgs.bind fun r l₃ hl₃ hargs ↦ ?_
  cases r with
  | none => exact done
  | some argv => exact exec (hpath.mono (hl₂.trans hl₃)) (hargs argv rfl)

theorem sysLink {esp : ℕ} : Safe l₀ (Code.sysLink (p := p) fuel esp) fun _ _ ↦ True := by
  refine withStr fun old i l₁ _ hold ↦ withStr fun new j l₂ hl₂ hnew ↦ ?_
  refine (namex (hold.mono hl₂)).bind fun _ l₃ hl₃ _ ↦ ?_
  split
  · exact done
  refine elsewhere.bind fun _ l₄ hl₄ _ ↦ ?_
  split
  · exact done
  · exact namex_rest (hnew.mono (hl₃.trans hl₄))

theorem sysMknod {esp : ℕ} : Safe l₀ (Code.sysMknod (p := p) fuel esp) fun _ _ ↦ True := by
  refine withStr fun path i l₁ _ hpath ↦ withInt fun _ l₂ hl₂ ↦ withInt fun _ l₃ hl₃ ↦ ?_
  exact namex_rest (hpath.mono (hl₂.trans hl₃))

theorem sysOpen {esp : ℕ} : Safe l₀ (Code.sysOpen (p := p) fuel esp) fun _ _ ↦ True := by
  refine withStr fun path i l₁ _ hpath ↦ withInt fun omode l₂ hl₂ ↦ ?_
  split
  · exact namex_rest (hpath.mono hl₂)
  · exact namex_rest (hpath.mono hl₂)

/-- Every call that takes strings keeps to them. -/
theorem stringCalls {esp : ℕ} {c : Code p ℤ} (hc : c ∈ Code.stringCalls fuel esp) :
    Safe [] c fun _ _ ↦ True := by
  simp only [Code.stringCalls, List.mem_cons, List.not_mem_nil, or_false] at hc
  rcases hc with rfl | rfl | rfl | rfl | rfl | rfl | rfl
  · exact withStr fun _ _ _ _ h ↦ namex_rest h
  · exact sysExec
  · exact sysLink
  · exact withStr fun _ _ _ _ h ↦ namex_rest h
  · exact sysMknod
  · exact sysOpen
  · exact withStr fun _ _ _ _ h ↦ namex_rest h

end Safe

end CS537.Shm
