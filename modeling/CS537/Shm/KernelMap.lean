import CS537.Lib.Tally
import CS537.Shm.Vm
import Mathlib.Data.List.Count
import Mathlib.Order.Interval.Finset.Nat

/-!
# What `setupkvm` builds

Mapping pages takes page tables from the head of the free list and nothing else. `setupkvm` takes
thirteen frames, the directory and twelve page tables, and maps exactly the rows of `kmap`; so
every address space has the page table of the user pages from the start.
-/

open Finset Function Holding

namespace CS537.Shm

namespace PageDir

/-- How many of the page tables lie in the frame `f`. -/
def tables (d : PageDir) (f : ℕ) : ℕ := held (range 1024) d.tab f

def numTables (d : PageDir) : ℕ := ((range 1024).filter fun x ↦ (d.tab x).isSome).card

theorem tables_zero (r f : ℕ) : (zero r).tables f = 0 := held_eq_zero_of_none (fun _ _ ↦ rfl) f

theorem numTables_zero (r : ℕ) : (zero r).numTables = 0 := by
  rw [numTables, card_eq_zero, filter_eq_empty_iff]
  simp

@[simp] theorem setPte_tables (d : PageDir) (v : ℕ) (p : Option Pte) :
    (d.setPte v p).tables = d.tables := by
  funext f
  rw [tables, setPte_tab, tables]

@[simp] theorem setPte_numTables (d : PageDir) (v : ℕ) (p : Option Pte) :
    (d.setPte v p).numTables = d.numTables := by
  rw [numTables, setPte_tab, numTables]

theorem addTable_tables {d : PageDir} {x : ℕ} (hx : x < 1024) (h : d.tab x = none) (r f : ℕ) :
    (d.addTable x r).tables f = d.tables f + [r].count f := by
  have hupd := held_update (mem_range.mpr hx) d.tab (some r) f
  rw [h, cell_none, Nat.add_zero, cell_some] at hupd
  rw [tables, addTable_tab, hupd, tables, List.count_singleton]
  simp

theorem addTable_numTables {d : PageDir} {x : ℕ} (hx : x < 1024) (h : d.tab x = none) (r : ℕ) :
    (d.addTable x r).numTables = d.numTables + 1 := by
  have hset : ((range 1024).filter fun y ↦ ((d.addTable x r).tab y).isSome)
      = insert x ((range 1024).filter fun y ↦ (d.tab y).isSome) := by
    ext y
    by_cases hy : y = x
    · subst hy
      simp [addTable_tab, hx]
    · simp [addTable_tab, hy]
  rw [numTables, hset, card_insert_of_notMem (by simp [h]), numTables]

end PageDir

/-! ## Taking page tables -/

/-- From `m` and `d` to `m'` and `d'` the directory has grown by page tables from the head of the
free list. -/
structure TookTables (m : Freelist) (d : PageDir) (m' : Freelist) (d' : PageDir) : Prop where
  frame : d'.frame = d.frame
  taken : ∃ l, m = l ++ m' ∧ l.length + d.numTables = d'.numTables ∧
    ∀ f, d'.tables f = d.tables f + l.count f
  keep : ∀ x, (d.tab x).isSome → (d'.tab x).isSome

namespace TookTables

variable {m m' m'' : Freelist} {d d' d'' : PageDir}

theorem refl (m : Freelist) (d : PageDir) : TookTables m d m d :=
  ⟨rfl, ⟨[], rfl, by simp, by simp⟩, fun _ h ↦ h⟩

theorem trans (h : TookTables m d m' d') (h' : TookTables m' d' m'' d'') :
    TookTables m d m'' d'' := by
  obtain ⟨l, rfl, hlen, hcount⟩ := h.taken
  obtain ⟨l', rfl, hlen', hcount'⟩ := h'.taken
  refine ⟨h'.frame.trans h.frame, ⟨l ++ l', by rw [List.append_assoc], ?_, fun f ↦ ?_⟩,
    fun x hx ↦ h'.keep x (h.keep x hx)⟩
  · rw [List.length_append]
    omega
  · rw [hcount', hcount, List.count_append]
    omega

theorem setPte (h : TookTables m d m' d') (v : ℕ) (p : Option Pte) :
    TookTables m d m' (d'.setPte v p) := by
  refine ⟨by simpa using h.frame, ?_, fun x hx ↦ by simpa using h.keep x hx⟩
  obtain ⟨l, hl, hlen, hcount⟩ := h.taken
  exact ⟨l, hl, by simpa using hlen, by simpa using hcount⟩

end TookTables

/-- `walkpgdir` with `create`: it fails when memory is out and the page table is missing, else the
page table exists and the entries are as before. -/
theorem walkpgdir_cases {v : ℕ} (hv : v < 2 ^ 20) (m : Freelist) (d : PageDir) :
    (walkpgdir v m d = none ∧ m = [] ∧ d.tab (v / 1024) = none) ∨
    ∃ m' d', walkpgdir v m d = some (m', d') ∧ TookTables m d m' d' ∧ d'.pte = d.pte ∧
      (d'.tab (v / 1024)).isSome ∧ ∀ x, (d'.tab x).isSome → (d.tab x).isSome ∨ x = v / 1024 := by
  by_cases h : (d.tab (v / 1024)).isSome
  · exact .inr ⟨m, d, walkpgdir_of_tab h m, .refl m d, rfl, h, fun x hx ↦ .inl hx⟩
  · have hnone : d.tab (v / 1024) = none := by simpa using h
    have hpde : ¬(d.pde (v / 1024)).isSome := by rwa [d.isSome_pde_iff]
    rw [walkpgdir, if_neg hpde]
    cases m with
    | nil => exact .inl ⟨rfl, rfl, hnone⟩
    | cons r m =>
      have hx : v / 1024 < 1024 := by omega
      refine .inr ⟨m, d.addTable (v / 1024) r, rfl, ⟨rfl, ⟨[r], rfl, ?_, ?_⟩, ?_⟩, ?_, ?_, ?_⟩
      · rw [PageDir.addTable_numTables hx hnone]
        simp [Nat.add_comm]
      · exact PageDir.addTable_tables hx hnone r
      · intro x hx
        rw [PageDir.addTable_tab]
        by_cases hxv : x = v / 1024
        · simp [hxv]
        · rwa [update_of_ne hxv]
      · funext u
        exact d.addTable_pte ((d.pde_eq_none_iff _).mpr hnone) r u
      · simp [PageDir.addTable_tab]
      · intro x hx
        by_cases hxv : x = v / 1024
        · exact .inr hxv
        · rw [PageDir.addTable_tab, update_of_ne hxv] at hx
          exact .inl hx

/-- The outcome of mapping `n` pages from `v` on: page tables are taken for these pages only, and
either all pages are mapped or a page table is missing and memory is out. -/
structure MapOutcome (w u : Bool) (n v pa : ℕ) (m : Freelist) (d : PageDir) (m' : Freelist)
    (d' : PageDir) (ok : Bool) : Prop where
  took : TookTables m d m' d'
  only : ∀ x, (d'.tab x).isSome → (d.tab x).isSome ∨ ∃ q, v ≤ q ∧ q < v + n ∧ q / 1024 = x
  fail : ok = false → m' = [] ∧ ∃ q, v ≤ q ∧ q < v + n ∧ d'.tab (q / 1024) = none
  tab : ok = true → ∀ q, v ≤ q → q < v + n → (d'.tab (q / 1024)).isSome
  pte : ok = true → ∀ q, d'.pte q =
    if v ≤ q ∧ q < v + n then some ⟨pa + (q - v) * pgsize, w, u⟩ else d.pte q

/-- Mapping absent pages does not panic. -/
theorem mapPages_outcome (pa : ℕ) {w u : Bool} {n v : ℕ} (hn : v + n ≤ 2 ^ 20) (m : Freelist)
    (d : PageDir) (hfree : ∀ q, v ≤ q → q < v + n → d.pte q = none) :
    ∃ m' d' ok, mapPages w u n v pa m d = .ok (m', d', ok) ∧
      MapOutcome w u n v pa m d m' d' ok := by
  induction n generalizing v pa m d with
  | zero =>
    refine ⟨m, d, true, rfl, .refl m d, fun x hx ↦ .inl hx, by simp, fun _ q h1 h2 ↦ ?_,
      fun _ q ↦ ?_⟩
    · omega
    · rw [if_neg (by omega)]
  | succ n ih =>
    rcases walkpgdir_cases (v := v) (by omega) m d with ⟨hw, hm, hnone⟩ | ⟨m₁, d₁, hw, htook, hpte,
      htab, honly⟩
    · refine ⟨m, d, false, by rw [mapPages, hw]; rfl, .refl m d, fun x hx ↦ .inl hx,
        fun _ ↦ ⟨hm, v, by omega, by omega, hnone⟩, by simp, by simp⟩
    · have hset := PageDir.setPte_pte d₁ htab (some ⟨pa, w, u⟩)
      have hfree' : ∀ q, v + 1 ≤ q → q < v + 1 + n →
          (d₁.setPte v (some ⟨pa, w, u⟩)).pte q = none := by
        intro q h1 h2
        rw [hset, update_of_ne (by omega), hpte]
        exact hfree q (by omega) (by omega)
      obtain ⟨m', d', ok, hok, hout⟩ :=
        ih (pa + pgsize) (v := v + 1) (by omega) m₁ (d₁.setPte v (some ⟨pa, w, u⟩)) hfree'
      have hv : (d₁.pte v).isSome = false := by
        rw [hpte, hfree v (by omega) (by omega)]
        rfl
      refine ⟨m', d', ok, ?_, (htook.setPte v _).trans hout.took, ?_, ?_, ?_, ?_⟩
      · rw [mapPages, hw]
        simp only [hv]
        exact hok
      · intro x hx
        rcases hout.only x hx with hx | ⟨q, h1, h2, h3⟩
        · rw [PageDir.setPte_tab] at hx
          rcases honly x hx with hx | rfl
          · exact .inl hx
          · exact .inr ⟨v, by omega, by omega, rfl⟩
        · exact .inr ⟨q, by omega, by omega, h3⟩
      · intro hf
        obtain ⟨hm, q, h1, h2, h3⟩ := hout.fail hf
        exact ⟨hm, q, by omega, by omega, h3⟩
      · intro ht q h1 h2
        by_cases hq : q = v
        · subst hq
          exact hout.took.keep _ (by rwa [PageDir.setPte_tab])
        · exact hout.tab ht q (by omega) (by omega)
      · intro ht q
        rw [hout.pte ht q, hset]
        by_cases hq : q = v
        · subst hq
          simp
        · rw [update_of_ne hq, hpte]
          by_cases h : v ≤ q ∧ q < v + (n + 1)
          · have hsub : q - v = q - (v + 1) + 1 := by omega
            rw [if_pos (by omega), if_pos h, hsub, Nat.add_mul, Nat.one_mul, Nat.add_assoc,
              Nat.add_comm pgsize]
          · rw [if_neg (by omega), if_neg h]

/-! ## The rows of `kmap` -/

/-- The row of the table that the virtual page `q` belongs to. -/
def rowOf (k : List (ℕ × ℕ × Bool)) (q : ℕ) : Option (ℕ × ℕ × Bool) :=
  k.find? fun r ↦ r.1 ≤ q * pgsize ∧ q * pgsize < r.2.1

/-- What the rows of a table map the virtual page `q` to. -/
def rowPte (k : List (ℕ × ℕ × Bool)) (q : ℕ) : Option Pte :=
  (rowOf k q).map fun r ↦ ⟨q * pgsize, r.2.2, false⟩

/-- Rows of whole pages, one after the other. -/
structure Rows (k : List (ℕ × ℕ × Bool)) : Prop where
  whole : ∀ r ∈ k, r.1 % pgsize = 0 ∧ r.2.1 % pgsize = 0 ∧ r.1 < r.2.1 ∧ r.2.1 ≤ 2 ^ 32
  ordered : k.Pairwise fun r r' ↦ r.2.1 ≤ r'.1

theorem rowOf_cons_of_mem {r : ℕ × ℕ × Bool} {q : ℕ} (h : r.1 ≤ q * pgsize ∧ q * pgsize < r.2.1)
    (k : List (ℕ × ℕ × Bool)) : rowOf (r :: k) q = some r :=
  List.find?_cons_of_pos (by simpa using h)

theorem rowOf_cons_of_not {r : ℕ × ℕ × Bool} {q : ℕ}
    (h : ¬(r.1 ≤ q * pgsize ∧ q * pgsize < r.2.1)) (k : List (ℕ × ℕ × Bool)) :
    rowOf (r :: k) q = rowOf k q :=
  List.find?_cons_of_neg (by simpa using h)

theorem isSome_rowOf_nil (q : ℕ) : (rowOf [] q).isSome = false := rfl

theorem isSome_rowOf_cons (r : ℕ × ℕ × Bool) (k : List (ℕ × ℕ × Bool)) (q : ℕ) :
    (rowOf (r :: k) q).isSome ↔ (r.1 ≤ q * pgsize ∧ q * pgsize < r.2.1) ∨ (rowOf k q).isSome := by
  by_cases h : r.1 ≤ q * pgsize ∧ q * pgsize < r.2.1
  · simp [rowOf_cons_of_mem h, h]
  · simp only [rowOf_cons_of_not h, h, false_or]

theorem rowOf_eq_none_of_lt {r : ℕ × ℕ × Bool} {k : List (ℕ × ℕ × Bool)} (h : Rows (r :: k)) {q : ℕ}
    (hq : q * pgsize < r.2.1) : rowOf k q = none := by
  rw [rowOf, List.find?_eq_none]
  intro r' hr'
  have := (List.pairwise_cons.mp h.ordered).1 r' hr'
  simp only [decide_eq_true_eq]
  omega

/-- The outcome of the loop of `setupkvm`. -/
structure RowsOutcome (k : List (ℕ × ℕ × Bool)) (m : Freelist) (d : PageDir) (m' : Freelist)
    (d' : PageDir) (ok : Bool) : Prop where
  took : TookTables m d m' d'
  only : ∀ x, (d'.tab x).isSome → (d.tab x).isSome ∨ ∃ q, (rowOf k q).isSome ∧ q / 1024 = x
  fail : ok = false → m' = [] ∧ ∃ q, (rowOf k q).isSome ∧ d'.tab (q / 1024) = none
  tab : ok = true → ∀ q, (rowOf k q).isSome → (d'.tab (q / 1024)).isSome
  pte : ok = true → ∀ q, d'.pte q = (rowPte k q).or (d.pte q)

theorem mapKernel_outcome {k : List (ℕ × ℕ × Bool)} (hk : Rows k) (m : Freelist) (d : PageDir)
    (hfree : ∀ q, (rowOf k q).isSome → d.pte q = none) :
    ∃ m' d' ok, mapKernel k m d = .ok (m', if ok then some d' else none) ∧
      RowsOutcome k m d m' d' ok := by
  induction k generalizing m d with
  | nil =>
    refine ⟨m, d, true, rfl, .refl m d, fun x hx ↦ .inl hx, by simp, fun _ q hq ↦ ?_,
      fun _ q ↦ ?_⟩
    · simp [rowOf] at hq
    · rfl
  | cons r k ih =>
    obtain ⟨p, e, w⟩ := r
    obtain ⟨hp, he, hpe, hle⟩ := hk.whole (p, e, w) (by simp)
    simp only at hp he hpe hle
    -- the row consists of the pages `p / pgsize`, …, `e / pgsize - 1`
    have hn : (p + (e - p) - 1) / pgsize + 1 - p / pgsize = e / pgsize - p / pgsize := by
      simp only [pgsize] at *
      omega
    have hmem : ∀ q, p / pgsize ≤ q ∧ q < p / pgsize + (e / pgsize - p / pgsize) ↔
        p ≤ q * pgsize ∧ q * pgsize < e := by
      intro q
      simp only [pgsize] at *
      omega
    have hrow : ∀ q, p / pgsize ≤ q → q < p / pgsize + (e / pgsize - p / pgsize) →
        rowOf ((p, e, w) :: k) q = some (p, e, w) := fun q h1 h2 ↦
      rowOf_cons_of_mem ((hmem q).mp ⟨h1, h2⟩) k
    have hbound : p / pgsize + (e / pgsize - p / pgsize) ≤ 2 ^ 20 := by
      simp only [pgsize] at *
      omega
    obtain ⟨m₁, d₁, ok₁, hmap, hout⟩ := mapPages_outcome p (w := w) (u := false) hbound m d
      (fun q h1 h2 ↦ hfree q (by rw [hrow q h1 h2]; rfl))
    have hmap' : mappages p (e - p) p w false m d = .ok (m₁, d₁, ok₁) := by
      rw [mappages, hn, hmap]
    cases ok₁ with
    | false =>
      obtain ⟨hm, q, h1, h2, h3⟩ := hout.fail rfl
      refine ⟨m₁, d₁, false, ?_, hout.took, ?_, fun _ ↦ ⟨hm, q, by rw [hrow q h1 h2]; rfl, h3⟩,
        by simp, by simp⟩
      · rw [mapKernel, hmap']
        rfl
      · intro x hx
        rcases hout.only x hx with hx | ⟨q, h1, h2, h3⟩
        · exact .inl hx
        · exact .inr ⟨q, by rw [hrow q h1 h2]; rfl, h3⟩
    | true =>
      -- a later row covers no page of this one
      have hlater : ∀ q, (rowOf k q).isSome → ¬(p ≤ q * pgsize ∧ q * pgsize < e) := by
        rintro q hq ⟨-, hqe⟩
        rw [rowOf_eq_none_of_lt hk hqe] at hq
        cases hq
      have hcons : ∀ q, (rowOf k q).isSome → rowOf ((p, e, w) :: k) q = rowOf k q := fun q hq ↦
        rowOf_cons_of_not (hlater q hq) k
      have hfree₁ : ∀ q, (rowOf k q).isSome → d₁.pte q = none := by
        intro q hq
        rw [hout.pte rfl q, if_neg (fun h ↦ hlater q hq ((hmem q).mp h))]
        exact hfree q (by rwa [hcons q hq])
      obtain ⟨m', d', ok, hrest, hout'⟩ :=
        ih ⟨fun r hr ↦ hk.whole r (by simp [hr]), (List.pairwise_cons.mp hk.ordered).2⟩ m₁ d₁ hfree₁
      refine ⟨m', d', ok, ?_, hout.took.trans hout'.took, ?_, ?_, ?_, ?_⟩
      · rw [mapKernel, hmap']
        exact hrest
      · intro x hx
        rcases hout'.only x hx with hx | ⟨q, hq, h3⟩
        · rcases hout.only x hx with hx | ⟨q, h1, h2, h3⟩
          · exact .inl hx
          · exact .inr ⟨q, by rw [hrow q h1 h2]; rfl, h3⟩
        · exact .inr ⟨q, by rwa [hcons q hq], h3⟩
      · intro hf
        obtain ⟨hm, q, hq, h3⟩ := hout'.fail hf
        exact ⟨hm, q, by rwa [hcons q hq], h3⟩
      · intro ht q hq
        by_cases h : p ≤ q * pgsize ∧ q * pgsize < e
        · have hq' := (hmem q).mpr h
          exact hout'.took.keep _ (hout.tab rfl q hq'.1 hq'.2)
        · rw [rowOf_cons_of_not h] at hq
          exact hout'.tab ht q hq
      · intro ht q
        rw [hout'.pte ht q, hout.pte rfl q]
        by_cases h : p ≤ q * pgsize ∧ q * pgsize < e
        · have hq' := (hmem q).mpr h
          have hsum : p + (q - p / pgsize) * pgsize = q * pgsize := by
            simp only [pgsize] at *
            omega
          rw [if_pos hq', rowPte, rowPte, rowOf_cons_of_mem h, rowOf_eq_none_of_lt hk h.2, hsum]
          rfl
        · rw [if_neg (fun h' ↦ h ((hmem q).mp h')), rowPte, rowPte, rowOf_cons_of_not h]

/-! ## `setupkvm` -/

variable (L : Link)

/-- The entry that `setupkvm` makes for the page `q`. -/
def kernelPte (q : ℕ) : Option Pte := rowPte (kmap L) q

/-- The indices of the page tables that `setupkvm` makes. -/
def KernelTab (x : ℕ) : Prop := x < 4 ∨ 1016 ≤ x ∧ x < 1024

instance : DecidablePred KernelTab := fun x ↦ inferInstanceAs (Decidable (x < 4 ∨ _))

theorem card_kernelTab : ((range 1024).filter KernelTab).card = 12 := by
  have hsplit : (range 1024).filter KernelTab = range 4 ∪ Ico 1016 1024 := by
    ext x
    simp only [mem_filter, mem_range, mem_union, mem_Ico, KernelTab]
    omega
  rw [hsplit]
  rfl

theorem rows_kmap : Rows (kmap L) := by
  have h1 := L.aligned
  have h2 := L.text_lt
  have h3 := L.data_le
  have h4 := L.kend_lt
  simp only [pgsize, phystop] at h1 h4
  constructor
  · simp only [kmap, List.forall_mem_cons, List.not_mem_nil, false_imp_iff, implies_true, and_true,
      true_and, usertop, phystop, pgsize]
    omega
  · simp only [kmap, List.pairwise_cons, List.forall_mem_cons, List.not_mem_nil, false_imp_iff,
      implies_true, and_true, usertop, phystop, List.Pairwise.nil]
    omega

/-- The kernel part covers the pages from `USERTOP` to `PHYSTOP` and the last 32 megabytes. -/
theorem isSome_rowOf_kmap (q : ℕ) :
    (rowOf (kmap L) q).isSome ↔ 160 ≤ q ∧ q < 4096 ∨ 0xFE000 ≤ q ∧ q < 0x100000 := by
  have h2 := L.text_lt
  have h3 := L.data_le
  have h4 := L.kend_lt
  simp only [phystop] at h4
  simp only [kmap, isSome_rowOf_cons, isSome_rowOf_nil, usertop, phystop, pgsize,
    Bool.false_eq_true, or_false]
  omega

theorem exists_row_iff_kernelTab (x : ℕ) :
    (∃ q, (rowOf (kmap L) q).isSome ∧ q / 1024 = x) ↔ KernelTab x := by
  simp only [isSome_rowOf_kmap, KernelTab]
  constructor
  · rintro ⟨q, hq, rfl⟩
    omega
  · intro hx
    refine ⟨x * 1024 + 1023, ?_⟩
    omega

theorem kernelPte_user {q : ℕ} (h : q < 160) : kernelPte L q = none := by
  have hnone : rowOf (kmap L) q = none := by
    rw [← Option.not_isSome_iff_eq_none, isSome_rowOf_kmap]
    omega
  rw [kernelPte, rowPte, hnone]
  rfl

/-- Above `USERTOP` every mapped page is mapped to its own address, for the kernel only. -/
theorem kernelPte_high {q : ℕ} (h : 160 ≤ q) (h' : q < 4096 ∨ 0xFE000 ≤ q ∧ q < 0x100000) :
    ∃ w, kernelPte L q = some ⟨q * pgsize, w, false⟩ := by
  obtain ⟨r, hr⟩ := Option.isSome_iff_exists.mp ((isSome_rowOf_kmap L q).mpr (by omega))
  exact ⟨r.2.2, by rw [kernelPte, rowPte, hr]; rfl⟩

theorem kernelPte_gap {q : ℕ} (h : 4096 ≤ q) (h' : q < 0xFE000 ∨ 0x100000 ≤ q) :
    kernelPte L q = none := by
  have hnone : rowOf (kmap L) q = none := by
    rw [← Option.not_isSome_iff_eq_none, isSome_rowOf_kmap]
    omega
  rw [kernelPte, rowPte, hnone]
  rfl

/-- A directory with exactly the kernel mappings, made from thirteen frames at the head of `m`. -/
structure Fresh (m m' : Freelist) (d : PageDir) : Prop where
  taken : ∃ l, m = d.frame :: (l ++ m') ∧ l.length = 12 ∧ ∀ f, d.tables f = l.count f
  tab : ∀ x, (d.tab x).isSome ↔ KernelTab x
  pte : d.pte = kernelPte L

theorem numTables_of_tab {d : PageDir} (h : ∀ x, (d.tab x).isSome ↔ KernelTab x) :
    d.numTables = 12 := by
  rw [PageDir.numTables, ← card_kernelTab, filter_congr fun x _ ↦ h x]

/-- `setupkvm` does not panic; it fails exactly when there are fewer than thirteen free frames. -/
theorem setupkvm_outcome (m : Freelist) :
    (setupkvm L m = .ok ([], none) ∧ m.length < 13) ∨
    ∃ m' d, setupkvm L m = .ok (m', some d) ∧ Fresh L m m' d := by
  cases m with
  | nil => exact .inl ⟨rfl, by simp⟩
  | cons r m =>
    obtain ⟨m', d, ok, hmap, hout⟩ := mapKernel_outcome (rows_kmap L) m (.zero r) (by simp)
    have honly : ∀ x, (d.tab x).isSome → KernelTab x := by
      intro x hx
      rcases hout.only x hx with hx | hx
      · simp at hx
      · exact (exists_row_iff_kernelTab L x).mp hx
    obtain ⟨l, hl, hlen, hcount⟩ := hout.took.taken
    rw [PageDir.numTables_zero, Nat.add_zero] at hlen
    simp only [PageDir.tables_zero, Nat.zero_add] at hcount
    cases ok with
    | false =>
      obtain ⟨hm, q, hq, hnone⟩ := hout.fail rfl
      subst hm
      refine .inl ⟨hmap, ?_⟩
      -- one of the twelve page tables is missing
      have hlt : d.numTables < 12 := by
        rw [PageDir.numTables, ← card_kernelTab]
        refine card_lt_card (Finset.ssubset_iff_subset_ne.mpr ⟨?_, ?_⟩)
        · intro x hx
          rw [mem_filter] at hx ⊢
          exact ⟨hx.1, honly x hx.2⟩
        · intro heq
          have hx : q / 1024 ∈ (range 1024).filter KernelTab := by
            have hk := (exists_row_iff_kernelTab L (q / 1024)).mp ⟨q, hq, rfl⟩
            rw [mem_filter, mem_range]
            refine ⟨?_, hk⟩
            rw [KernelTab] at hk
            omega
          rw [← heq, mem_filter, hnone] at hx
          simp at hx
      rw [hl, List.append_nil, List.length_cons]
      omega
    | true =>
      have htab : ∀ x, (d.tab x).isSome ↔ KernelTab x := by
        intro x
        refine ⟨honly x, fun hx ↦ ?_⟩
        obtain ⟨q, hq, rfl⟩ := (exists_row_iff_kernelTab L x).mpr hx
        exact hout.tab rfl q hq
      refine .inr ⟨m', d, hmap, ⟨l, ?_, hlen.trans (numTables_of_tab htab), hcount⟩, htab, ?_⟩
      · rw [hout.took.frame, hl]
        rfl
      · funext q
        rw [hout.pte rfl q, PageDir.zero_pte, Option.or_none]
        rfl

theorem setupkvm_of_le {m : Freelist} (h : 13 ≤ m.length) :
    ∃ m' d, setupkvm L m = .ok (m', some d) ∧ Fresh L m m' d := by
  rcases setupkvm_outcome L m with ⟨-, hlt⟩ | h'
  · omega
  · exact h'

namespace Fresh

variable {L} {m m' : Freelist} {d : PageDir}

theorem length (h : Fresh L m m' d) : m.length = m'.length + 13 := by
  obtain ⟨l, rfl, hlen, -⟩ := h.taken
  rw [List.length_cons, List.length_append]
  omega

/-- The thirteen frames have gone from the free list into the directory. -/
theorem count (h : Fresh L m m' d) (f : ℕ) :
    m'.count f + [d.frame].count f + d.tables f = m.count f := by
  obtain ⟨l, hm, -, hcount⟩ := h.taken
  rw [hm, hcount, ← List.singleton_append (l := l ++ m'), List.count_append, List.count_append]
  omega

end Fresh

end CS537.Shm
