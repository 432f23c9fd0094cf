import CS537.Shm.Contents
import CS537.Shm.Frames

/-!
# `copyuvm` and the contents of memory

What `copyuvm` writes: cleared frames for the directory and the page tables, their entries, and the
bytes of the pages that it copies. Each function below gives the contents of physical memory after
the function of `Memory` or `Vm` it is named after. All of it goes to frames from the free list; so
the parent keeps its pages and page tables, and the child gets a copy.
-/

open Finset Function Tally

namespace CS537.Shm

variable {L : Link}

/-! ## What is written -/

/-- `*pte = p`, in the page table for the page `v`. -/
def storePte (d : PageDir) (v : ℕ) (p : Pte) (mem : Phys) : Phys :=
  match d.tab (v / 1024) with
  | none => mem
  | some f => storeWord (f + 4 * (v % 1024)) p.word mem

/-- `memmove(dst, src, PGSIZE)`. -/
def movePage (dst src : ℕ) (mem : Phys) : Phys := fun y ↦
  if InFrame dst y then mem (src + (y - dst)) else mem y

def walkpgdirBytes (v : ℕ) (m : Freelist) (d : PageDir) (mem : Phys) : Phys :=
  if (d.pde (v / 1024)).isSome then mem
  else
    match kalloc m with
    | none => mem
    | some (r, _) =>
      storeWord (d.frame + 4 * (v / 1024)) (Pte.word ⟨r, true, true⟩) (memset r 0 mem)

def mapPagesBytes (w u : Bool) : ℕ → ℕ → ℕ → Freelist → PageDir → Phys → Phys
  | 0, _, _, _, _, mem => mem
  | n + 1, v, pa, m, d, mem =>
    let mem := walkpgdirBytes v m d mem
    match walkpgdir v m d with
    | none => mem
    | some (m, d) =>
      if (d.pte v).isSome then mem
      else mapPagesBytes w u n (v + 1) (pa + pgsize) m (d.setPte v (some ⟨pa, w, u⟩))
        (storePte d v ⟨pa, w, u⟩ mem)

def mappagesBytes (la size pa : ℕ) (w u : Bool) (m : Freelist) (d : PageDir) (mem : Phys) : Phys :=
  mapPagesBytes w u ((la + size - 1) / pgsize + 1 - la / pgsize) (la / pgsize) pa m d mem

def mapKernelBytes : List (ℕ × ℕ × Bool) → Freelist → PageDir → Phys → Phys
  | [], _, _, mem => mem
  | (p, e, w) :: k, m, d, mem =>
    let mem := mappagesBytes p (e - p) p w false m d mem
    match mappages p (e - p) p w false m d with
    | .ok (m, d, true) => mapKernelBytes k m d mem
    | _ => mem

def setupkvmBytes (L : Link) (m : Freelist) (mem : Phys) : Phys :=
  match kalloc m with
  | none => mem
  | some (r, m) => mapKernelBytes (kmap L) m (.zero r) (memset r 0 mem)

def copyPagesBytes (src : PageDir) : ℕ → ℕ → Freelist → PageDir → Phys → Phys
  | 0, _, _, _, mem => mem
  | n + 1, v, m, d, mem =>
    match lookup src v, kalloc m with
    | some (some p), some (r, m) =>
      let mem := mappagesBytes (v * pgsize) pgsize r true true m d (movePage r p.pa mem)
      match mappages (v * pgsize) pgsize r true true m d with
      | .ok (m, d, true) => copyPagesBytes src n (v + 1) m d mem
      | _ => mem
    | _, _ => mem

def sharePagesBytes (src : PageDir) : ℕ → ℕ → Freelist → PageDir → Phys → Phys
  | 0, _, _, _, mem => mem
  | n + 1, v, m, d, mem =>
    match lookup src v with
    | some (some p) =>
      let mem := mappagesBytes (v * pgsize) pgsize p.pa true true m d mem
      match mappages (v * pgsize) pgsize p.pa true true m d with
      | .ok (m, d, true) => sharePagesBytes src n (v + 1) m d mem
      | _ => mem
    | _ => mem

def freeTablesBytes (d : PageDir) : List ℕ → Freelist → Phys → Phys
  | [], _, mem => mem
  | x :: xs, m, mem =>
    match d.tab x with
    | none => freeTablesBytes d xs m mem
    | some r => freeTablesBytes d xs (r :: m) (kfreeBytes r m mem)

/-- The entries that `deallocuvm` clears lie in page tables that are filled with junk after it. -/
def freevmBytes (L : Link) (sz : ℕ) (m : Freelist) (d : PageDir) (mem : Phys) : Phys :=
  let mem := deallocuvmBytes sz 0 m d mem
  match deallocuvm L sz 0 m d with
  | .ok (m, d, _) =>
    let mem := freeTablesBytes d (List.range 1024) m mem
    match freeTables L d (List.range 1024) m with
    | .ok m => kfreeBytes d.frame m mem
    | .error _ => mem
  | .error _ => mem

def copyuvmBytes (L : Link) (psz shmtop sz : ℕ) (src : PageDir) (m : Freelist) (mem : Phys) :
    Phys :=
  let mem := setupkvmBytes L m mem
  match setupkvm L m with
  | .ok (m, some d) =>
    let mem := copyPagesBytes src (rounds 0 sz) 0 m d mem
    match copyPages src (rounds 0 sz) 0 m d with
    | .ok (m, d, false) => freevmBytes L psz m d mem
    | .ok (m, d, true) =>
      let n := rounds (shmtop / pgsize) usertop
      let mem := sharePagesBytes src n (shmtop / pgsize) m d mem
      match sharePages src n (shmtop / pgsize) m d with
      | .ok (m, d, false) => freevmBytes L psz m d mem
      | _ => mem
    | .error _ => mem
  | _ => mem

/-! ## Writes to some frames only -/

theorem InFrame.eq {f f' y : ℕ} (h : InFrame f y) (h' : InFrame f' y) (hf : f % pgsize = 0)
    (hf' : f' % pgsize = 0) : f = f' := by
  simp only [InFrame, pgsize] at *
  omega

/-- Nothing changes outside the frames `F`. -/
def Within (F : Set ℕ) (g : Phys → Phys) : Prop :=
  ∀ mem y, (∀ f ∈ F, ¬InFrame f y) → g mem y = mem y

namespace Within

variable {F G : Set ℕ} {g h : Phys → Phys}

theorem id (F : Set ℕ) : Within F fun mem ↦ mem := fun _ _ _ ↦ rfl

theorem comp (hg : Within F g) (hh : Within F h) : Within F fun mem ↦ h (g mem) :=
  fun mem y hy ↦ (hh (g mem) y hy).trans (hg mem y hy)

theorem mono (hg : Within F g) (hFG : F ⊆ G) : Within G g :=
  fun mem y hy ↦ hg mem y fun f hf ↦ hy f (hFG hf)

theorem of_overwrites {l : List ℕ} (hg : Overwrites l g) (hl : ∀ f ∈ l, f ∈ F) : Within F g :=
  fun mem y hy ↦ hg.other mem y fun f hf ↦ hy f (hl f hf)

theorem memset {f : ℕ} (hf : f ∈ F) (b : BitVec 8) : Within F (memset f b) :=
  fun _ _ hy ↦ if_neg (hy f hf)

theorem movePage {f : ℕ} (hf : f ∈ F) (src : ℕ) : Within F (movePage f src) :=
  fun _ _ hy ↦ if_neg (hy f hf)

theorem kfreeBytes {f : ℕ} (hf : f ∈ F) (m : Freelist) : Within F (kfreeBytes f m) :=
  .of_overwrites (.kfreeBytes f m) fun f' hf' ↦ by rwa [List.mem_singleton.mp hf']

/-- The word at the index `i` of a frame. -/
theorem storeWord {f i : ℕ} (hf : f ∈ F) (hi : i < 1024) (w : BitVec 32) :
    Within F (storeWord (f + 4 * i) w) := by
  refine fun _ y hy ↦ if_neg fun hin ↦ hy f hf ?_
  simp only [InFrame, pgsize]
  omega

end Within

/-! ## `setupkvm` -/

/-- The free frames, the directory and the page tables lie in `F`. -/
structure Owned (F : Set ℕ) (m : Freelist) (d : PageDir) : Prop where
  free : ∀ f ∈ m, f ∈ F
  frame : d.frame ∈ F
  tab : ∀ x f, d.tab x = some f → f ∈ F

namespace Owned

variable {F : Set ℕ} {m m' : Freelist} {d d' : PageDir} {v : ℕ}

theorem setPte (h : Owned F m d) (v : ℕ) (p : Option Pte) : Owned F m (d.setPte v p) :=
  ⟨h.free, by rw [PageDir.setPte_frame]; exact h.frame,
    fun x f hx ↦ h.tab x f (by rwa [PageDir.setPte_tab] at hx)⟩

theorem walkpgdir (h : Owned F m d) (hw : walkpgdir v m d = some (m', d')) : Owned F m' d' := by
  rw [Shm.walkpgdir] at hw
  split at hw
  · obtain ⟨rfl, rfl⟩ := Prod.mk.inj (Option.some.inj hw)
    exact h
  · cases m with
    | nil => cases hw
    | cons r m =>
      obtain ⟨rfl, rfl⟩ := Prod.mk.inj (Option.some.inj hw)
      refine ⟨fun f hf ↦ h.free f (List.mem_cons_of_mem r hf), h.frame, fun x f hx ↦ ?_⟩
      rw [PageDir.addTable_tab] at hx
      by_cases hxv : x = v / 1024
      · rw [hxv, update_self] at hx
        rw [← Option.some.inj hx]
        exact h.free r List.mem_cons_self
      · rw [update_of_ne hxv] at hx
        exact h.tab x f hx

theorem storePte (h : Owned F m d) (v : ℕ) (p : Pte) : Within F (storePte d v p) := by
  intro mem y hy
  rw [Shm.storePte]
  cases htab : d.tab (v / 1024) with
  | none => rfl
  | some f => exact Within.storeWord (h.tab _ f htab) (Nat.mod_lt v (by decide)) _ mem y hy

theorem walkpgdirBytes (h : Owned F m d) (hv : v < 2 ^ 20) : Within F (walkpgdirBytes v m d) := by
  intro mem y hy
  rw [Shm.walkpgdirBytes]
  split
  · rfl
  · cases m with
    | nil => rfl
    | cons r m =>
      have hr := h.free r List.mem_cons_self
      exact (Within.memset hr 0).comp
        (.storeWord h.frame (show v / 1024 < 1024 by omega) _) mem y hy

theorem mapPages {w u : Bool} {n pa : ℕ} {ok : Bool} (h : Owned F m d)
    (hmap : mapPages w u n v pa m d = .ok (m', d', ok)) : Owned F m' d' := by
  induction n generalizing v pa m d with
  | zero =>
    obtain ⟨rfl, h'⟩ := Prod.mk.inj (Except.ok.inj hmap)
    obtain ⟨rfl, -⟩ := Prod.mk.inj h'
    exact h
  | succ n ih =>
    rw [Shm.mapPages] at hmap
    split at hmap
    · obtain ⟨rfl, h'⟩ := Prod.mk.inj (Except.ok.inj hmap)
      obtain ⟨rfl, -⟩ := Prod.mk.inj h'
      exact h
    · rename_i m₁ d₁ hw
      split at hmap
      · cases hmap
      · exact ih ((h.walkpgdir hw).setPte v _) hmap

theorem mapPagesBytes {w u : Bool} {n pa : ℕ} (h : Owned F m d) (hv : v + n ≤ 2 ^ 20) :
    Within F (mapPagesBytes w u n v pa m d) := by
  induction n generalizing v pa m d with
  | zero => exact .id F
  | succ n ih =>
    intro mem y hy
    have hwalk := h.walkpgdirBytes (v := v) (by omega) mem y hy
    cases hw : Shm.walkpgdir v m d with
    | none =>
      rw [Shm.mapPagesBytes, hw]
      exact hwalk
    | some x =>
      obtain ⟨m₁, d₁⟩ := x
      have h₁ := h.walkpgdir hw
      rw [Shm.mapPagesBytes, hw]
      simp only
      split
      · exact hwalk
      · exact ((ih (h₁.setPte v _) (by omega) _ y hy).trans (h₁.storePte v _ _ y hy)).trans hwalk

/-- The loop of `setupkvm`, over rows below `2 ^ 32`. -/
theorem mapKernelBytes {k : List (ℕ × ℕ × Bool)} (hk : ∀ r ∈ k, r.1 < r.2.1 ∧ r.2.1 ≤ 2 ^ 32)
    (h : Owned F m d) : Within F (mapKernelBytes k m d) := by
  induction k generalizing m d with
  | nil => exact .id F
  | cons r k ih =>
    obtain ⟨p, e, w⟩ := r
    obtain ⟨hpe, hle⟩ := hk (p, e, w) List.mem_cons_self
    simp only at hpe hle
    intro mem y hy
    have hrow : mappagesBytes p (e - p) p w false m d mem y = mem y := by
      refine h.mapPagesBytes (v := p / pgsize) ?_ mem y hy
      simp only [pgsize]
      omega
    rw [Shm.mapKernelBytes]
    cases hmap : mappages p (e - p) p w false m d with
    | error e => exact hrow
    | ok x =>
      obtain ⟨m₁, d₁, ok⟩ := x
      cases ok with
      | false => exact hrow
      | true =>
        have h₁ : Owned F m₁ d₁ := h.mapPages hmap
        exact (ih (fun r hr ↦ hk r (List.mem_cons_of_mem _ hr)) h₁ _ y hy).trans hrow

end Owned

theorem setupkvmBytes_within (L : Link) (m : Freelist) :
    Within {f | f ∈ m} (setupkvmBytes L m) := by
  cases m with
  | nil => exact .id _
  | cons r m =>
    have hr : r ∈ {f | f ∈ r :: m} := List.mem_cons_self
    have howned : Owned {f | f ∈ r :: m} m (.zero r) :=
      ⟨fun f hf ↦ List.mem_cons_of_mem r hf, hr, fun x f hx ↦ by cases hx⟩
    have hrows : ∀ x ∈ kmap L, x.1 < x.2.1 ∧ x.2.1 ≤ 2 ^ 32 := fun x hx ↦
      ⟨((rows_kmap L).whole x hx).2.2.1, ((rows_kmap L).whole x hx).2.2.2⟩
    exact (Within.memset hr 0).comp (howned.mapKernelBytes hrows)

/-! ## Copying and sharing -/

/-- The frames of the page tables. -/
def PageDir.tabs (d : PageDir) : Set ℕ := {f | ∃ x, d.tab x = some f}

theorem setPte_tabs (d : PageDir) (v : ℕ) (p : Option Pte) : (d.setPte v p).tabs = d.tabs := by
  rw [PageDir.tabs, PageDir.setPte_tab, PageDir.tabs]

theorem storePte_within (d : PageDir) (v : ℕ) (p : Pte) : Within d.tabs (storePte d v p) := by
  intro mem y hy
  rw [storePte]
  cases htab : d.tab (v / 1024) with
  | none => rfl
  | some f =>
    have hf : f ∈ d.tabs := ⟨v / 1024, htab⟩
    exact Within.storeWord hf (Nat.mod_lt v (by decide)) _ mem y hy

/-- Where the page table exists, mapping one page only writes its entry. -/
theorem mappagesBytes_one {d : PageDir} {v : ℕ} (h : (d.tab (v / 1024)).isSome)
    (hfree : d.pte v = none) (pa : ℕ) (m : Freelist) (mem : Phys) :
    mappagesBytes (v * pgsize) pgsize pa true true m d mem = storePte d v ⟨pa, true, true⟩ mem := by
  have hn : (v * pgsize + pgsize - 1) / pgsize + 1 - v * pgsize / pgsize = 1 := by
    simp only [pgsize]
    omega
  have hv : v * pgsize / pgsize = v := Nat.mul_div_cancel v (by decide)
  have hwalk : walkpgdirBytes v m d mem = mem := if_pos ((d.isSome_pde_iff _).mpr h)
  rw [mappagesBytes, hn, hv, mapPagesBytes, walkpgdir_of_tab h, hwalk]
  simp [hfree, mapPagesBytes]

theorem copyPagesBytes_cons {src d : PageDir} {v r : ℕ} {p : Pte} (hsrc : Space L src)
    (hd : Space L d) (hv : v < 160) (hp : src.pte v = some p) (hfree : d.pte v = none) (n : ℕ)
    (m : Freelist) (mem : Phys) :
    copyPagesBytes src (n + 1) v (r :: m) d mem
      = copyPagesBytes src n (v + 1) m (d.setPte v (some ⟨r, true, true⟩))
        (storePte d v ⟨r, true, true⟩ (movePage r p.pa mem)) := by
  have htab := hd.isSome_tab hv
  rw [copyPagesBytes, lookup_of_tab (hsrc.isSome_tab hv), hp]
  simp only [kalloc, mappages_one r htab hfree m, mappagesBytes_one htab hfree r m]

theorem sharePagesBytes_cons {src d : PageDir} {v : ℕ} {p : Pte} (hsrc : Space L src)
    (hd : Space L d) (hv : v < 160) (hp : src.pte v = some p) (hfree : d.pte v = none) (n : ℕ)
    (m : Freelist) (mem : Phys) :
    sharePagesBytes src (n + 1) v m d mem
      = sharePagesBytes src n (v + 1) m (d.setPte v (some ⟨p.pa, true, true⟩))
        (storePte d v ⟨p.pa, true, true⟩ mem) := by
  have htab := hd.isSome_tab hv
  rw [sharePagesBytes, lookup_of_tab (hsrc.isSome_tab hv), hp]
  simp only [mappages_one p.pa htab hfree m, mappagesBytes_one htab hfree p.pa m]

/-- What the first loop of `copyuvm` is given: a parent with the pages from `v` to `v + n`, a child
without, and free frames that neither of them uses. -/
structure CopyReady (L : Link) (src : PageDir) (n v : ℕ) (m : Freelist) (d : PageDir) : Prop where
  parent : Space L src
  child : Space L d
  le : v + n ≤ 160
  present : ∀ q, v ≤ q → q < v + n → (src.pte q).isSome
  absent : ∀ q, v ≤ q → q < v + n → d.pte q = none
  valid : ∀ f ∈ m, L.Valid f
  nodup : m.Nodup
  apart : ∀ f ∈ m, f ∉ d.tabs
  source : ∀ q p, q < 160 → src.pte q = some p → p.pa ∉ m ∧ p.pa ∉ d.tabs

namespace CopyReady

variable {src d : PageDir} {n v r : ℕ} {m : Freelist}

/-- One page further on. -/
theorem next (h : CopyReady L src (n + 1) v (r :: m) d) :
    CopyReady L src n (v + 1) m (d.setPte v (some ⟨r, true, true⟩)) := by
  have hv : v < 160 := by
    have := h.le
    omega
  have hset := PageDir.setPte_pte d (h.child.isSome_tab hv) (some ⟨r, true, true⟩)
  obtain ⟨hr, hnodup⟩ := List.nodup_cons.mp h.nodup
  refine ⟨h.parent, h.child.setPte hv fun e he ↦ ?_, by have := h.le; omega,
    fun u h1 h2 ↦ h.present u (by omega) (by omega), fun u h1 h2 ↦ ?_,
    fun f hf ↦ h.valid f (List.mem_cons_of_mem r hf), hnodup, fun f hf ↦ ?_, fun u p hu hp ↦ ?_⟩
  · obtain rfl := Option.some.inj he
    exact ⟨h.valid r List.mem_cons_self, rfl, rfl⟩
  · rw [hset, update_of_ne (by omega)]
    exact h.absent u (by omega) (by omega)
  · rw [setPte_tabs]
    exact h.apart f (List.mem_cons_of_mem r hf)
  · rw [setPte_tabs]
    obtain ⟨hm, htabs⟩ := h.source u p hu hp
    exact ⟨fun hmem ↦ hm (List.mem_cons_of_mem r hmem), htabs⟩

/-- The loop writes to the frames it takes and to page tables. -/
theorem within (h : CopyReady L src n v m d) :
    Within ({f | f ∈ m.take n} ∪ d.tabs) (copyPagesBytes src n v m d) := by
  induction n generalizing v m d with
  | zero => exact .id _
  | succ n ih =>
    obtain ⟨p, hp⟩ := Option.isSome_iff_exists.mp (h.present v le_rfl (by omega))
    have hv : v < 160 := by
      have := h.le
      omega
    have hlookup := lookup_of_tab (h.parent.isSome_tab hv)
    cases m with
    | nil =>
      intro mem y _
      rw [copyPagesBytes, hlookup, hp]
      rfl
    | cons r m =>
      have hr : r ∈ {f | f ∈ (r :: m).take (n + 1)} ∪ d.tabs := .inl List.mem_cons_self
      have hfun : copyPagesBytes src (n + 1) v (r :: m) d = fun mem ↦ copyPagesBytes src n (v + 1)
          m (d.setPte v (some ⟨r, true, true⟩))
          (storePte d v ⟨r, true, true⟩ (movePage r p.pa mem)) :=
        funext (copyPagesBytes_cons h.parent h.child hv hp (h.absent v le_rfl (by omega)) n m)
      rw [hfun]
      refine ((Within.movePage hr p.pa).comp ((storePte_within d v _).mono ?_)).comp
        ((ih h.next).mono ?_)
      · exact Set.subset_union_right
      · rw [setPte_tabs]
        refine Set.union_subset_union_left _ fun f hf ↦ ?_
        exact List.mem_cons_of_mem r hf

theorem aligned_of_tabs (h : CopyReady L src n v m d) {f : ℕ} (hf : f ∈ d.tabs) :
    f % pgsize = 0 := by
  obtain ⟨x, hx⟩ := hf
  exact (h.child.valid_tab x f hx).1

/-- A free frame is not written by what happens to the rest of the list and to page tables. -/
theorem apart_of_cons (h : CopyReady L src (n + 1) v (r :: m) d) {o : ℕ} (ho : o < pgsize) :
    (∀ f ∈ {f | f ∈ m.take n}, ¬InFrame f (r + o)) ∧ ∀ f ∈ d.tabs, ¬InFrame f (r + o) := by
  have hr : r % pgsize = 0 := (h.valid r List.mem_cons_self).1
  have hin : InFrame r (r + o) := ⟨Nat.le_add_right r o, Nat.add_lt_add_left ho r⟩
  constructor
  · intro f hf hfin
    have hmem : f ∈ m := List.mem_of_mem_take hf
    have heq := hfin.eq hin (h.valid f (List.mem_cons_of_mem r hmem)).1 hr
    exact (List.nodup_cons.mp h.nodup).1 (heq ▸ hmem)
  · intro f hf hfin
    have heq := hfin.eq hin (h.aligned_of_tabs hf) hr
    exact h.apart r List.mem_cons_self (heq ▸ hf)

/-- The frames that the loop takes hold the bytes of the parent's pages, in order. -/
theorem copied (h : CopyReady L src n v m d) (mem : Phys) {i f o : ℕ} {p : Pte} (hi : i < n)
    (hf : m[i]? = some f) (hp : src.pte (v + i) = some p) (ho : o < pgsize) :
    copyPagesBytes src n v m d mem (f + o) = mem (p.pa + o) := by
  induction n generalizing v m d mem i with
  | zero => omega
  | succ n ih =>
    have hle := h.le
    obtain ⟨p₀, hp₀⟩ := Option.isSome_iff_exists.mp (h.present v le_rfl (by omega))
    cases m with
    | nil => cases hf
    | cons r m =>
      obtain ⟨hrest, htabs⟩ := h.apart_of_cons ho
      rw [copyPagesBytes_cons h.parent h.child (by omega) hp₀ (h.absent v le_rfl (by omega))]
      cases i with
      | zero =>
        obtain rfl := Option.some.inj hf
        obtain rfl := Option.some.inj (hp₀.symm.trans hp)
        -- the later rounds leave this page alone
        have hlater : ∀ mem₁, copyPagesBytes src n (v + 1) m
            (d.setPte v (some ⟨r, true, true⟩)) mem₁ (r + o) = mem₁ (r + o) := by
          refine fun mem₁ ↦ h.next.within mem₁ _ fun f hf ↦ ?_
          rw [setPte_tabs] at hf
          exact hf.elim (hrest f) (htabs f)
        have hin : InFrame r (r + o) := ⟨Nat.le_add_right r o, Nat.add_lt_add_left ho r⟩
        rw [hlater, storePte_within d v _ _ _ htabs, movePage, if_pos hin, Nat.add_sub_cancel_left]
      | succ i =>
        rw [List.getElem?_cons_succ] at hf
        rw [ih h.next _ (by omega) hf (by rwa [Nat.add_assoc, Nat.add_comm 1 i])]
        -- the parent's page has not been written
        have hp160 : v + (i + 1) < 160 := by omega
        obtain ⟨hfree, hsep⟩ := h.source _ p hp160 hp
        have hpa : p.pa % pgsize = 0 := (h.parent.user _ hp160 p hp).1.1
        have hin : InFrame p.pa (p.pa + o) :=
          ⟨Nat.le_add_right p.pa o, Nat.add_lt_add_left ho p.pa⟩
        rw [storePte_within d v _ _ _ fun f hf hfin ↦ hsep
          ((hfin.eq hin (h.aligned_of_tabs hf) hpa) ▸ hf)]
        refine if_neg fun hr ↦ hfree ?_
        rw [← hr.eq hin (h.valid r List.mem_cons_self).1 hpa]
        exact List.mem_cons_self

end CopyReady

theorem sharePagesBytes_within {src d : PageDir} (hsrc : Space L src) (hd : Space L d) {n v : ℕ}
    (hv : v + n ≤ 160) (hfree : ∀ q, v ≤ q → q < v + n → d.pte q = none) (m : Freelist) :
    Within d.tabs (sharePagesBytes src n v m d) := by
  induction n generalizing v d with
  | zero => exact .id _
  | succ n ih =>
    have hlookup := lookup_of_tab (hsrc.isSome_tab (v := v) (by omega))
    cases hp : src.pte v with
    | none =>
      intro mem y _
      rw [sharePagesBytes, hlookup, hp]
    | some p =>
      have hv' : v < 160 := by omega
      obtain ⟨hvalid, -, -⟩ := hsrc.user v hv' p hp
      have hset := PageDir.setPte_pte d (hd.isSome_tab hv') (some ⟨p.pa, true, true⟩)
      have hspace := hd.setPte hv' (p := some ⟨p.pa, true, true⟩)
        (fun e he ↦ by cases he; exact ⟨hvalid, rfl, rfl⟩)
      have hfun : sharePagesBytes src (n + 1) v m d = fun mem ↦ sharePagesBytes src n (v + 1) m
          (d.setPte v (some ⟨p.pa, true, true⟩)) (storePte d v ⟨p.pa, true, true⟩ mem) :=
        funext (sharePagesBytes_cons hsrc hd hv' hp (hfree v le_rfl (by omega)) n m)
      have hrest := ih hspace (v := v + 1) (by omega) fun q h1 h2 ↦ by
        rw [hset, update_of_ne (by omega)]
        exact hfree q (by omega) (by omega)
      rw [setPte_tabs] at hrest
      rw [hfun]
      exact (storePte_within d v _).comp hrest

/-! ## `freevm` -/

theorem freeTablesBytes_within (d : PageDir) (xs : List ℕ) (m : Freelist) :
    Within d.tabs (freeTablesBytes d xs m) := by
  induction xs generalizing m with
  | nil => exact .id _
  | cons x xs ih =>
    intro mem y hy
    rw [freeTablesBytes]
    cases hx : d.tab x with
    | none => exact ih m mem y hy
    | some r =>
      have hr : r ∈ d.tabs := ⟨x, hx⟩
      exact (Within.kfreeBytes hr m).comp (ih (r :: m)) mem y hy

/-- The frames of an address space: the directory, the page tables and the user pages below `w`. -/
def PageDir.below (d : PageDir) (w : ℕ) : Set ℕ :=
  {f | f = d.frame ∨ f ∈ d.tabs ∨ ∃ v, v < w ∧ d.frames v = some f}

theorem freevmBytes_within {d : PageDir} (hd : Space L d) {sz : ℕ} (hsz : sz ≤ usertop)
    (m : Freelist) : Within (d.below (pageUp sz)) (freevmBytes L sz m d) := by
  have hpages : Within (d.below (pageUp sz)) (deallocuvmBytes sz 0 m d) := by
    intro mem y hy
    rw [deallocuvmBytes]
    split
    · rfl
    · have hle := pageUp_le hsz
      refine Within.of_overwrites (deallocPagesBytes_overwrites m hd (n := rounds (pageUp 0) sz)
        (v := pageUp 0) ?_) (fun f hf ↦ ?_) mem y hy
      · rw [show pageUp 0 = 0 by decide, rounds]
        omega
      · obtain ⟨v, hv, hvf⟩ := List.mem_filterMap.mp hf
        rw [show pageUp 0 = 0 by decide, rounds] at hv
        have := (List.mem_range'_1.mp hv).2
        exact .inr (.inr ⟨v, by omega, hvf⟩)
  have htables : ∀ m₁ d₁ x, deallocuvm L sz 0 m d = .ok (m₁, d₁, x) →
      d₁.frame = d.frame ∧ d₁.tab = d.tab := by
    intro m₁ d₁ x h
    by_cases hpos : 0 < sz
    · obtain ⟨m', d', hok, hfreed⟩ := deallocuvm_freed m hd hpos hsz
      obtain ⟨-, h'⟩ := Prod.mk.inj (Except.ok.inj (h.symm.trans hok))
      obtain ⟨rfl, -⟩ := Prod.mk.inj h'
      exact ⟨hfreed.frame, hfreed.tab⟩
    · rw [deallocuvm, if_pos (by omega)] at h
      obtain ⟨-, h'⟩ := Prod.mk.inj (Except.ok.inj h)
      obtain ⟨rfl, -⟩ := Prod.mk.inj h'
      exact ⟨rfl, rfl⟩
  intro mem y hy
  rw [freevmBytes]
  simp only
  cases hdealloc : deallocuvm L sz 0 m d with
  | error e => exact hpages mem y hy
  | ok z =>
    obtain ⟨m₁, d₁, x⟩ := z
    obtain ⟨hframe, htab⟩ := htables m₁ d₁ x hdealloc
    have htabs : d₁.tabs ⊆ d.below (pageUp sz) := by
      rw [PageDir.tabs, htab]
      exact fun f hf ↦ .inr (.inl hf)
    have hboth := hpages.comp ((freeTablesBytes_within d₁ (List.range 1024) m₁).mono htabs)
    simp only
    cases freeTables L d₁ (List.range 1024) m₁ with
    | error e => exact hboth mem y hy
    | ok m₂ =>
      have hmem : d₁.frame ∈ d.below (pageUp sz) := .inl hframe
      exact (hboth.comp (.kfreeBytes hmem m₂)) mem y hy

/-! ## `copyuvm` -/

/-- A parent: the user pages are those below `PGROUNDUP(sz)` and those from `shmtop` on. -/
structure Parent (L : Link) (shmtop sz : ℕ) (src : PageDir) : Prop where
  space : Space L src
  user : ∀ v, (∃ p, src.pte v = some p ∧ p.u = true) ↔
    v < pageUp sz ∨ shmtop / pgsize ≤ v ∧ v < usertop / pgsize
  sz_le : sz ≤ shmtop
  top_le : shmtop ≤ usertop
  aligned : shmtop % pgsize = 0

/-- A sound free list: frames of the allocator, each of them once, and none that `src` uses. -/
structure FreeOf (L : Link) (src : PageDir) (m : Freelist) : Prop where
  valid : ∀ f ∈ m, L.Valid f
  nodup : m.Nodup
  apart : ∀ f ∈ m, f ∉ src.below (usertop / pgsize)

/-- What a child is like to whom `src` has been copied while memory changed by `g`: it has the same
user pages, the private ones in new frames of their own with the bytes of the parent's. -/
structure Duplicate (shmtop sz : ℕ) (src : PageDir) (m m' : Freelist) (d : PageDir)
    (g : Phys → Phys) : Prop where
  user : ∀ v, (∃ p, d.pte v = some p ∧ p.u = true) ↔ ∃ p, src.pte v = some p ∧ p.u = true
  copied : ∀ v, v < pageUp sz → ∃ f f₀, d.frames v = some f ∧ src.frames v = some f₀ ∧
    f ∈ m ∧ f ∉ m' ∧ (∀ u, u < usertop / pgsize → d.frames u = some f → u = v) ∧
    ∀ mem o, o < pgsize → g mem (f + o) = mem (f₀ + o)
  shared : ∀ v, shmtop / pgsize ≤ v → v < usertop / pgsize → d.frames v = src.frames v

namespace Parent

variable {src : PageDir} {shmtop sz : ℕ} {m m' : Freelist} {d : PageDir}

theorem pageUp_le (h : Parent L shmtop sz src) : pageUp sz ≤ shmtop / pgsize :=
  pageUp_le_div h.sz_le h.aligned

theorem top_div_le (h : Parent L shmtop sz src) : shmtop / pgsize ≤ 160 :=
  Nat.div_le_div_right h.top_le

theorem isSome_low (h : Parent L shmtop sz src) {v : ℕ} (hv : v < pageUp sz) :
    (src.pte v).isSome := by
  obtain ⟨p, hp, -⟩ := (h.user v).mpr (.inl hv)
  rw [hp]
  rfl

theorem isSome_shared (h : Parent L shmtop sz src) {v : ℕ} (h1 : shmtop / pgsize ≤ v)
    (h2 : v < 160) : (src.pte v).isSome := by
  obtain ⟨p, hp, -⟩ := (h.user v).mpr (.inr ⟨h1, h2⟩)
  rw [hp]
  rfl

end Parent

theorem Fresh.tabs_subset {m m' : Freelist} {d : PageDir} {l : List ℕ} (h : Fresh L m m' d)
    (hl : ∀ f, d.tables f = l.count f) : ∀ f ∈ d.tabs, f ∈ l := by
  rintro f ⟨x, hx⟩
  have hk : KernelTab x := (h.tab x).mp (by rw [hx]; rfl)
  have hlt : x < 1024 := by
    rw [KernelTab] at hk
    omega
  have hpos : 0 < d.tables f := Holding.held_pos_iff.mpr ⟨x, mem_range.mpr hlt, hx⟩
  exact mem_of_count (hl f).symm hpos

/-- After `setupkvm` the first loop has what it needs. -/
theorem CopyReady.of_fresh {src d : PageDir} {shmtop sz : ℕ} {m m' : Freelist}
    (hsrc : Parent L shmtop sz src) (hm : FreeOf L src m) (h : Fresh L m m' d) :
    CopyReady L src (pageUp sz) 0 m' d := by
  obtain ⟨l, hl, -, hcount⟩ := h.taken
  obtain ⟨hspace, hvalid⟩ := h.space hm.valid
  have htabs := h.tabs_subset hcount
  have hnodup := hm.nodup
  rw [hl] at hnodup
  have hparts := List.nodup_append'.mp (List.nodup_cons.mp hnodup).2
  have hle := hsrc.pageUp_le
  have hle' := hsrc.top_div_le
  refine ⟨hsrc.space, hspace, by omega, fun q _ hq ↦ hsrc.isSome_low (by omega), fun q _ hq ↦ ?_,
    hvalid, hparts.2.1, fun f hf hft ↦ hparts.2.2 (htabs f hft) hf, fun q p hq hp ↦ ?_⟩
  · rw [h.pte, kernelPte_user L (by omega)]
  · have hused : p.pa ∈ src.below (usertop / pgsize) :=
      .inr (.inr ⟨q, hq, by rw [PageDir.frames, hp]; rfl⟩)
    have hfree : p.pa ∉ m := fun hmem ↦ hm.apart _ hmem hused
    rw [hl] at hfree
    exact ⟨fun hmem ↦ hfree (by simp [hmem]), fun hmem ↦ hfree (by simp [htabs _ hmem])⟩

/-- The first loop does not panic, and maps the private pages as far as there is memory. -/
theorem copyPages_of_fresh {src d₁ : PageDir} {shmtop sz : ℕ} {m m₁ : Freelist}
    (hsrc : Parent L shmtop sz src) (hm : ∀ f ∈ m, L.Valid f) (h : Fresh L m m₁ d₁) :
    ∃ m₂ d₂ l ok, copyPages src (pageUp sz) 0 m₁ d₁ = .ok (m₂, d₂, ok) ∧ Mapped 0 l m₁ d₁ m₂ d₂ ∧
      l.length ≤ pageUp sz ∧ (ok = true → l.length = pageUp sz) ∧ Space L d₂ ∧
      ∀ v, l.length ≤ v → v < 160 → d₂.pte v = none := by
  obtain ⟨hspace, hvalid⟩ := h.space hm
  have hle := hsrc.pageUp_le
  have hle' := hsrc.top_div_le
  have hnone : ∀ v, v < 160 → d₁.pte v = none := fun v hv ↦ by
    rw [h.pte, kernelPte_user L hv]
  rcases copyPages_outcome hsrc.space (n := pageUp sz) (v := 0) m₁ hspace (by omega)
    (fun q _ hq ↦ hnone q (by omega)) hvalid with ⟨-, q, -, hq, habsent⟩ | ⟨m₂, d₂, l, ok, hok,
    hmap, htrue, hfalse⟩
  · have hpres := hsrc.isSome_low (v := q) (by omega)
    rw [habsent] at hpres
    cases hpres
  · have hlen : l.length ≤ pageUp sz := by
      cases ok with
      | true => exact (htrue rfl).le
      | false => exact (hfalse rfl).1.le
    refine ⟨m₂, d₂, l, ok, hok, hmap, hlen, htrue, hmap.space hspace (by omega) hvalid,
      fun v h1 h2 ↦ ?_⟩
    rw [hmap.pte, if_neg (by omega), hnone v h2]

/-- The second loop does not fail. -/
theorem sharePages_of_copied {src d₂ : PageDir} {shmtop sz : ℕ} (hsrc : Parent L shmtop sz src)
    (hd₂ : Space L d₂) (hnone : ∀ v, pageUp sz ≤ v → v < 160 → d₂.pte v = none) (m : Freelist) :
    ∃ d, sharePages src (rounds (shmtop / pgsize) usertop) (shmtop / pgsize) m d₂
        = .ok (m, d, true) ∧ d.frame = d₂.frame ∧ d.tab = d₂.tab ∧
      ∀ v, d.pte v = if shmtop / pgsize ≤ v ∧ v < 160 then src.pte v else d₂.pte v := by
  have hle := hsrc.pageUp_le
  have hle' := hsrc.top_div_le
  have hround : rounds (shmtop / pgsize) usertop = 160 - shmtop / pgsize := rfl
  obtain ⟨d, hshare, hframe, htab, hpte⟩ := sharePages_outcome hsrc.space
    (n := rounds (shmtop / pgsize) usertop) (v := shmtop / pgsize) m hd₂ (by omega)
    (fun q h1 h2 ↦ hnone q (by omega) (by omega))
    (fun q h1 h2 ↦ hsrc.isSome_shared h1 (by omega))
  refine ⟨d, hshare, hframe, htab, fun v ↦ ?_⟩
  rw [hpte, hround]
  exact if_congr (by omega) rfl rfl

/-- All writes of `copyuvm` go to frames that were free. -/
theorem copyuvmBytes_within {src : PageDir} {shmtop sz : ℕ} {m : Freelist}
    (hsrc : Parent L shmtop sz src) (hm : FreeOf L src m) :
    Within {f | f ∈ m} (copyuvmBytes L sz shmtop sz src m) := by
  have hle := hsrc.pageUp_le
  have hle' := hsrc.top_div_le
  have hsetup := setupkvmBytes_within L m
  have hn : rounds 0 sz = pageUp sz := Nat.sub_zero _
  have hround : rounds (shmtop / pgsize) usertop = 160 - shmtop / pgsize := rfl
  intro mem y hy
  rcases setupkvm_outcome L m with ⟨hfail, -⟩ | ⟨m₁, d₁, hok, hfresh⟩
  · rw [copyuvmBytes, hfail]
    exact hsetup mem y hy
  obtain ⟨l₁, hl₁, -, hcount⟩ := hfresh.taken
  have htabs : d₁.tabs ⊆ {f | f ∈ m} := fun f hf ↦ by
    have := hfresh.tabs_subset hcount f hf
    simp [hl₁, this]
  obtain ⟨m₂, d₂, l, ok, hcopy, hmap, hlen, htrue, hspace₂, hnone₂⟩ :=
    copyPages_of_fresh hsrc hm.valid hfresh
  have hloop := (CopyReady.of_fresh hsrc hm hfresh).within.mono
    (Set.union_subset (fun f hf ↦ by
      have hmem : f ∈ m₁ := List.mem_of_mem_take hf
      simp [hl₁, hmem]) htabs)
  have hboth := hsetup.comp hloop
  have htabs₂ : d₂.tabs ⊆ {f | f ∈ m} := by
    rw [PageDir.tabs, hmap.tab]
    exact htabs
  have hl : ∀ f ∈ l, f ∈ m := fun f hf ↦ by
    rw [hl₁, hmap.taken]
    simp [hf]
  rw [copyuvmBytes]
  simp only [hok, hn, hcopy]
  cases ok with
  | false =>
    have hfree := (freevmBytes_within hspace₂ (show sz ≤ usertop from
      hsrc.sz_le.trans hsrc.top_le) m₂).mono (G := {f | f ∈ m}) (by
        rintro f (rfl | hf | ⟨v, hv, hvf⟩)
        · change d₂.frame ∈ m
          rw [hmap.frame, hl₁]
          exact List.mem_cons_self
        · exact htabs₂ hf
        · by_cases hvl : v < l.length
          · rw [PageDir.frames, hmap.pte, if_pos (by omega), Option.map_map] at hvf
            refine hl f (List.mem_of_getElem? (i := v) ?_)
            rw [Nat.sub_zero] at hvf
            simpa using hvf
          · rw [PageDir.frames, hnone₂ v (by omega) (by omega)] at hvf
            cases hvf)
    exact hboth.comp hfree mem y hy
  | true =>
    obtain ⟨d, hshare, -, -, -⟩ := sharePages_of_copied hsrc hspace₂
      (fun v h1 h2 ↦ hnone₂ v (by omega) h2) m₂
    simp only [hshare]
    have hlast := (sharePagesBytes_within hsrc.space hspace₂
      (n := rounds (shmtop / pgsize) usertop) (v := shmtop / pgsize) (by omega)
      (fun v h1 h2 ↦ hnone₂ v (by omega) (by omega)) m₂).mono htabs₂
    exact hboth.comp hlast mem y hy

/-- A `copyuvm` that succeeds, loop by loop: after `setupkvm` there are the frames `m₁` and the
directory `d₁`, after the first loop `d₂`, with the frames `l` mapped. -/
structure Phases (L : Link) (shmtop sz : ℕ) (src : PageDir) (m m₁ : Freelist) (d₁ : PageDir)
    (l : List ℕ) (m' : Freelist) (d₂ d : PageDir) : Prop where
  setup : setupkvm L m = .ok (m₁, some d₁)
  fresh : Fresh L m m₁ d₁
  copy : copyPages src (pageUp sz) 0 m₁ d₁ = .ok (m', d₂, true)
  mapped : Mapped 0 l m₁ d₁ m' d₂
  length : l.length = pageUp sz
  space : Space L d₂
  gap : ∀ v, pageUp sz ≤ v → v < 160 → d₂.pte v = none
  share : sharePages src (rounds (shmtop / pgsize) usertop) (shmtop / pgsize) m' d₂
    = .ok (m', d, true)
  pte : ∀ v, d.pte v = if shmtop / pgsize ≤ v ∧ v < 160 then src.pte v else d₂.pte v

theorem exists_phases {src d : PageDir} {shmtop sz : ℕ} {m m' : Freelist}
    (hsrc : Parent L shmtop sz src) (hm : ∀ f ∈ m, L.Valid f)
    (h : copyuvm L sz shmtop sz src m = .ok (m', some d)) :
    ∃ m₁ d₁ l d₂, Phases L shmtop sz src m m₁ d₁ l m' d₂ d := by
  have hn : rounds 0 sz = pageUp sz := Nat.sub_zero _
  rcases setupkvm_outcome L m with ⟨hfail, -⟩ | ⟨m₁, d₁, hok, hfresh⟩
  · rw [copyuvm, hfail] at h
    cases h
  obtain ⟨m₂, d₂, l, ok, hcopy, hmap, -, htrue, hspace₂, hnone₂⟩ :=
    copyPages_of_fresh hsrc hm hfresh
  rw [copyuvm, hok, ok_bind] at h
  simp only [hn, hcopy, ok_bind] at h
  cases ok with
  | false =>
    obtain ⟨m₃, -, h⟩ := bind_eq_ok h
    cases h
  | true =>
    have hlen := htrue rfl
    have hgap : ∀ v, pageUp sz ≤ v → v < 160 → d₂.pte v = none := fun v h1 h2 ↦
      hnone₂ v (by omega) h2
    obtain ⟨d', hshare, -, -, hpte⟩ := sharePages_of_copied hsrc hspace₂ hgap m₂
    simp only [hshare, ok_bind] at h
    obtain ⟨rfl, hd⟩ := Prod.mk.inj (Except.ok.inj h)
    obtain rfl := Option.some.inj hd
    exact ⟨m₁, d₁, l, d₂, hok, hfresh, hcopy, hmap, hlen, hspace₂, hgap, hshare, hpte⟩

theorem FreeOf.notMem {src : PageDir} {m : Freelist} (hm : FreeOf L src m) {v : ℕ} {p : Pte}
    (hv : v < 160) (hp : src.pte v = some p) : p.pa ∉ m := fun hmem ↦
  hm.apart _ hmem (.inr (.inr ⟨v, hv, by rw [PageDir.frames, hp]; rfl⟩))

namespace Phases

variable {src d d₁ d₂ : PageDir} {shmtop sz : ℕ} {m m₁ m' : Freelist} {l : List ℕ}

/-- The private page `v` lies in the frame number `v` that was taken. -/
theorem private_pte (h : Phases L shmtop sz src m m₁ d₁ l m' d₂ d) (hsrc : Parent L shmtop sz src)
    {v : ℕ} (hv : v < pageUp sz) : ∃ f, l[v]? = some f ∧ d.pte v = some ⟨f, true, true⟩ := by
  have hle := hsrc.pageUp_le
  have hlen := h.length
  refine ⟨l.get ⟨v, by omega⟩, List.getElem?_eq_getElem (by omega), ?_⟩
  rw [h.pte, if_neg (by omega), h.mapped.pte, if_pos (by omega), Nat.sub_zero,
    List.getElem?_eq_getElem (by omega)]
  rfl

theorem gap_pte (h : Phases L shmtop sz src m m₁ d₁ l m' d₂ d) (hsrc : Parent L shmtop sz src)
    {v : ℕ} (h1 : pageUp sz ≤ v) (h2 : v < shmtop / pgsize) : d.pte v = none := by
  have hle := hsrc.top_div_le
  rw [h.pte, if_neg (by omega), h.gap v h1 (by omega)]

theorem shared_pte (h : Phases L shmtop sz src m m₁ d₁ l m' d₂ d) (hsrc : Parent L shmtop sz src)
    {v : ℕ} (hv : shmtop / pgsize ≤ v) : d.pte v = src.pte v := by
  rw [h.pte]
  split
  · rfl
  · rw [h.space.high v (by omega), hsrc.space.high v (by omega)]

/-- The frames that were taken are free before and not after, and they are different. -/
theorem taken (h : Phases L shmtop sz src m m₁ d₁ l m' d₂ d) (hm : FreeOf L src m) :
    l.Nodup ∧ ∀ f ∈ l, f ∈ m ∧ f ∉ m' ∧ f ∉ d₂.tabs := by
  obtain ⟨l₁, hl₁, -, hcount⟩ := h.fresh.taken
  rw [h.mapped.taken] at hl₁
  have hnodup := hm.nodup
  rw [hl₁] at hnodup
  obtain ⟨-, hrest, hdisj⟩ := List.nodup_append'.mp (List.nodup_cons.mp hnodup).2
  obtain ⟨hl, -, hdisj'⟩ := List.nodup_append'.mp hrest
  refine ⟨hl, fun f hf ↦ ⟨by simp [hl₁, hf], fun hf' ↦ hdisj' hf hf', fun hft ↦ ?_⟩⟩
  rw [PageDir.tabs, h.mapped.tab] at hft
  exact hdisj (h.fresh.tabs_subset hcount f hft) (List.mem_append_left _ hf)

/-- A frame of a private page is mapped nowhere else. -/
theorem frames_inj (h : Phases L shmtop sz src m m₁ d₁ l m' d₂ d) (hsrc : Parent L shmtop sz src)
    (hm : FreeOf L src m) {u v f : ℕ} (hf : l[v]? = some f) (hu : u < 160)
    (hfu : d.frames u = some f) : u = v := by
  have hlen := h.length
  obtain ⟨hnodup, htaken⟩ := h.taken hm
  by_cases hlow : u < pageUp sz
  · obtain ⟨f', hf', hpte⟩ := h.private_pte hsrc hlow
    rw [PageDir.frames, hpte] at hfu
    obtain rfl : f' = f := Option.some.inj hfu
    exact (List.getElem?_inj (by omega) hnodup).mp (hf'.trans hf.symm)
  · -- a shared page lies in a frame of the parent, in the gap there is none
    exfalso
    by_cases hgap : u < shmtop / pgsize
    · rw [PageDir.frames, h.gap_pte hsrc (by omega) hgap] at hfu
      cases hfu
    · rw [PageDir.frames, h.shared_pte hsrc (by omega)] at hfu
      obtain ⟨p, hp, rfl⟩ := Option.map_eq_some_iff.mp hfu
      exact hm.notMem hu hp (htaken _ (List.mem_of_getElem? hf)).1

/-- The frame of a private page ends up with the bytes of the parent's page. -/
theorem bytes (h : Phases L shmtop sz src m m₁ d₁ l m' d₂ d) (hsrc : Parent L shmtop sz src)
    (hm : FreeOf L src m) {v f o : ℕ} {p : Pte} (hf : l[v]? = some f) (hv : v < pageUp sz)
    (hp : src.pte v = some p) (ho : o < pgsize) (mem : Phys) :
    copyuvmBytes L sz shmtop sz src m mem (f + o) = mem (p.pa + o) := by
  have hle := hsrc.pageUp_le
  have hle' := hsrc.top_div_le
  have hlen := h.length
  have hn : rounds 0 sz = pageUp sz := Nat.sub_zero _
  have hround : rounds (shmtop / pgsize) usertop = 160 - shmtop / pgsize := rfl
  have hready := CopyReady.of_fresh hsrc hm h.fresh
  obtain ⟨hfm, -, hftabs⟩ := (h.taken hm).2 f (List.mem_of_getElem? hf)
  have hfalign : f % pgsize = 0 := (hm.valid f hfm).1
  have hin : InFrame f (f + o) := ⟨Nat.le_add_right f o, Nat.add_lt_add_left ho f⟩
  have hpin : InFrame p.pa (p.pa + o) := ⟨Nat.le_add_right p.pa o, Nat.add_lt_add_left ho p.pa⟩
  have hpalign : p.pa % pgsize = 0 := (hsrc.space.user v (by omega) p hp).1.1
  have hshared := sharePagesBytes_within hsrc.space h.space
    (n := rounds (shmtop / pgsize) usertop) (v := shmtop / pgsize) (by omega)
    (fun u h1 h2 ↦ h.gap u (by omega) (by omega)) m'
  rw [copyuvmBytes]
  simp only [h.setup, hn, h.copy, h.share]
  calc sharePagesBytes src _ _ m' d₂ (copyPagesBytes src (pageUp sz) 0 m₁ d₁
          (setupkvmBytes L m mem)) (f + o)
      = copyPagesBytes src (pageUp sz) 0 m₁ d₁ (setupkvmBytes L m mem) (f + o) := by
        refine hshared _ _ fun f' hf' hf'in ↦ hftabs ?_
        obtain ⟨x, hx⟩ := hf'
        rw [← hf'in.eq hin (h.space.valid_tab x f' hx).1 hfalign]
        exact ⟨x, hx⟩
    _ = setupkvmBytes L m mem (p.pa + o) := by
        refine hready.copied _ hv ?_ (by rwa [Nat.zero_add]) ho
        rw [h.mapped.taken, List.getElem?_append_left (by omega), hf]
    _ = mem (p.pa + o) := by
        refine setupkvmBytes_within L m mem _ fun f' hf' hf'in ↦ hm.notMem (by omega) hp ?_
        rw [← hf'in.eq hpin (hm.valid f' hf').1 hpalign]
        exact hf'

theorem duplicate (h : Phases L shmtop sz src m m₁ d₁ l m' d₂ d) (hsrc : Parent L shmtop sz src)
    (hm : FreeOf L src m) :
    Duplicate shmtop sz src m m' d (copyuvmBytes L sz shmtop sz src m) := by
  have hle := hsrc.pageUp_le
  have hle' := hsrc.top_div_le
  constructor
  · intro v
    by_cases hlow : v < pageUp sz
    · obtain ⟨f, -, hf⟩ := h.private_pte hsrc hlow
      exact iff_of_true ⟨_, hf, rfl⟩ ((hsrc.user v).mpr (.inl hlow))
    by_cases hgap : v < shmtop / pgsize
    · rw [h.gap_pte hsrc (by omega) hgap]
      refine iff_of_false (by simp) fun huser ↦ ?_
      have := (hsrc.user v).mp huser
      omega
    · rw [h.shared_pte hsrc (by omega)]
  · intro v hv
    obtain ⟨f, hf, hpte⟩ := h.private_pte hsrc hv
    obtain ⟨p, hp⟩ := Option.isSome_iff_exists.mp (hsrc.isSome_low hv)
    obtain ⟨hfm, hfm', -⟩ := (h.taken hm).2 f (List.mem_of_getElem? hf)
    exact ⟨f, p.pa, by rw [PageDir.frames, hpte]; rfl, by rw [PageDir.frames, hp]; rfl, hfm, hfm',
      fun u hu hfu ↦ h.frames_inj hsrc hm hf hu hfu,
      fun mem o ho ↦ h.bytes hsrc hm hf hv hp ho mem⟩
  · intro v hv _
    rw [PageDir.frames, h.shared_pte hsrc hv, PageDir.frames]

end Phases

/-! ## The parents that `fork` meets -/

theorem Parent.of_full {s : Kernel} {q : Slot} (hok : MemOk L s.mem)
    (hq : (s.proc q).state ≠ .unused) (hfull : (s.proc q).Full) :
    Parent L (s.proc q).shmtop (s.proc q).sz (s.proc q).pgdir := by
  have hp := hok.procs q _ (mem_proc hq)
  have hspace : Space L (s.proc q).pgdir := hp.space
  have hle : (s.proc q).sz ≤ (s.proc q).shmtop := hp.sz_le
  have htop : (s.proc q).shmtop ≤ usertop := hp.top_le
  have halign : (s.proc q).shmtop % pgsize = 0 := hp.top_aligned
  refine ⟨hspace, fun v ↦ ⟨?_, ?_⟩, hle, htop, halign⟩
  · rintro ⟨p, hv, hu⟩
    by_contra hout
    rw [not_or] at hout
    by_cases h160 : v < 160
    · have hnone : (s.proc q).pgdir.pte v = none := hp.gap v (not_lt.mp hout.1) (by
        by_contra hge
        exact hout.2 ⟨not_lt.mp hge, h160⟩)
      rw [hnone] at hv
      cases hv
    · rw [hspace.high v (not_lt.mp h160), kernelPte, rowPte] at hv
      obtain ⟨r, -, rfl⟩ := Option.map_eq_some_iff.mp hv
      cases hu
  · rintro (hv | ⟨h1, h2⟩)
    · obtain ⟨p, hpv⟩ := Option.isSome_iff_exists.mp (hfull v hv)
      have hle160 := Shm.pageUp_le (hle.trans htop)
      exact ⟨p, hpv, (hspace.user v (by omega) p hpv).2.2⟩
    · obtain ⟨k, j, -, -, -, hpte⟩ := hp.shared h1 h2
      exact ⟨_, hpte, rfl⟩

/-- Where every frame has one place, the free frames are in no address space. -/
theorem FreeOf.of_uses {s : Kernel} {q : Slot} (hok : MemOk L s.mem)
    (huses : ∀ f, s.mem.uses f ≤ 1) (hq : (s.proc q).state ≠ .unused)
    (hlive : (s.proc q).state ≠ .zombie) : FreeOf L (s.proc q).pgdir s.freelist := by
  have hspace : Space L (s.proc q).pgdir := (hok.procs q _ (mem_proc hq)).space
  have hframes := hok.framesOk huses
  refine ⟨hok.free, hframes.nodup, fun f hf hused ↦ ?_⟩
  have hcount : 0 < s.mem.freelist.count f := List.count_pos_iff.mpr hf
  have hone := huses f
  have hle := le_tally (owned f) s.mem.proc q
  rw [mem_proc hq] at hle
  change (s.proc q).view.owns f ≤ _ at hle
  rw [Mem.uses] at hone
  rw [ProcMem.owns] at hle
  change _ + [(s.proc q).pgdir.frame].count f + (s.proc q).pgdir.tables f + _ ≤ _ at hle
  rcases hused with rfl | ⟨x, hx⟩ | ⟨v, hv, hvf⟩
  · simp at hle
    omega
  · have hk : KernelTab x := (hspace.tab x).mp (by rw [hx]; rfl)
    have hlt : x < 1024 := by
      rw [KernelTab] at hk
      omega
    have hpos : 0 < (s.proc q).pgdir.tables f :=
      Holding.held_pos_iff.mpr ⟨x, mem_range.mpr hlt, hx⟩
    omega
  · obtain ⟨p, hp, rfl⟩ := Option.map_eq_some_iff.mp hvf
    refine hframes.unmapped q hq hlive v ?_ p hp hf
    simp only [pgsize, usertop] at *
    omega

/-- **`copyuvm` makes an equal address space.** For every parent with a sound free list the call
does not panic, the frames of the parent keep their contents, and when it succeeds the child is a
duplicate. -/
theorem copyuvm_duplicates (L : Link) (shmtop sz : ℕ) (src : PageDir) (m : Freelist)
    (hsrc : Parent L shmtop sz src) (hm : FreeOf L src m) :
    ∃ m' o, copyuvm L sz shmtop sz src m = .ok (m', o) ∧
      (∀ mem f y, f ∈ src.below (usertop / pgsize) → InFrame f y →
        copyuvmBytes L sz shmtop sz src m mem y = mem y) ∧
      ∀ d, o = some d → Duplicate shmtop sz src m m' d (copyuvmBytes L sz shmtop sz src m) := by
  have hkept : ∀ mem f y, f ∈ src.below (usertop / pgsize) → InFrame f y →
      copyuvmBytes L sz shmtop sz src m mem y = mem y := by
    intro mem f y hf hy
    have halign : f % pgsize = 0 := by
      rcases hf with rfl | ⟨x, hx⟩ | ⟨v, hv, hvf⟩
      · exact hsrc.space.valid_frame.1
      · exact (hsrc.space.valid_tab x f hx).1
      · obtain ⟨p, hp, rfl⟩ := Option.map_eq_some_iff.mp hvf
        exact (hsrc.space.user v hv p hp).1.1
    refine copyuvmBytes_within hsrc hm mem y fun f' hf' hy' ↦ hm.apart f' hf' ?_
    rwa [hy'.eq hy (hm.valid f' hf').1 halign]
  have hout := copyuvm_outcome (L := L) (m := m) hsrc.space hm.valid hsrc.sz_le hsrc.top_le
    hsrc.aligned fun v h1 h2 ↦ hsrc.isSome_shared h1 h2
  generalize hx : copyuvm L sz shmtop sz src m = x at hout ⊢
  cases hout with
  | @panic e v hv hnone =>
    have hpres := hsrc.isSome_low hv
    rw [hnone] at hpres
    cases hpres
  | @fail m' _ _ _ => exact ⟨m', none, rfl, hkept, fun d hd ↦ by cases hd⟩
  | @copied m' d _ =>
    refine ⟨m', some d, rfl, hkept, fun d' hd' ↦ ?_⟩
    obtain rfl := Option.some.inj hd'
    obtain ⟨m₁, d₁, l, d₂, hphases⟩ := exists_phases hsrc hm.valid hx
    exact hphases.duplicate hsrc hm

/-- The first process has one page, and there is memory for a copy. -/
theorem copyuvm_duplicates_first : ∃ s m' d, Reach kernelImage s ∧ s.Ready initproc ∧
    copyuvm kernelImage (s.proc initproc).sz (s.proc initproc).shmtop (s.proc initproc).sz
      (s.proc initproc).pgdir s.freelist = .ok (m', some d) ∧
    Duplicate (s.proc initproc).shmtop (s.proc initproc).sz (s.proc initproc).pgdir s.freelist m' d
      (copyuvmBytes kernelImage (s.proc initproc).sz (s.proc initproc).shmtop (s.proc initproc).sz
        (s.proc initproc).pgdir s.freelist) := by
  obtain ⟨s, hs, hready, hlen, hsz, -, -, -, -, hfull⟩ :=
    exists_running_unreaped (L := kernelImage) (by rw [length_frames_kernelImage]; decide)
  rw [length_frames_kernelImage] at hlen
  have hok := hs.reach.memOk
  have hsrc := Parent.of_full hok hready.ne_unused hfull
  have hm := FreeOf.of_uses hok hs.sound.uses_le hready.ne_unused (by rw [hready.1]; simp)
  obtain ⟨m', o, hcall, -, hdup⟩ := copyuvm_duplicates kernelImage (s.proc initproc).shmtop
    (s.proc initproc).sz (s.proc initproc).pgdir s.freelist hsrc hm
  have hout := copyuvm_outcome hsrc.space hm.valid hsrc.sz_le hsrc.top_le hsrc.aligned
    fun v h1 h2 ↦ hsrc.isSome_shared h1 h2
  rw [hcall] at hout
  have hone : pageUp pgsize = 1 := by decide
  cases hout with
  | fail hlt =>
    rw [hsz, hone] at hlt
    omega
  | @copied m' d _ => exact ⟨s, m', d, hs.reach, hready, hcall, hdup d rfl⟩

end CS537.Shm
