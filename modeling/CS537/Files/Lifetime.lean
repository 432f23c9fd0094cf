import CS537.Files.RefCount

/-!
# The life of a pipe

A pipe has two ends. Each is open as long as there is a file for it, or a process is about to close
it in `pipeclose`, and there is never more than one of these for one end. The page of the pipe is
freed with the second end. So whoever is inside `piperead` or `pipewrite` still has its pipe, since
the descriptor that it came with stays open, and no page is left behind.
-/

namespace CS537.Files

open Function Transition Finset Tally Holding

variable {s t : Kernel} {a : Act} {q : Slot} {p : ℕ} {w : Bool}

/-! ## Ends -/

/-- The file is the write end of the pipe `p`, or its read end. -/
def File.IsEnd (p : ℕ) (w : Bool) (x : File) : Prop :=
  x.type = .pipe ∧ x.pipe = p ∧ x.writable = w

instance (p : ℕ) (w : Bool) (x : File) : Decidable (x.IsEnd p w) :=
  inferInstanceAs (Decidable (_ ∧ _))

def File.ends (p : ℕ) (w : Bool) (x : File) : ℕ := if x.IsEnd p w then 1 else 0

/-- The process is about to close this end of the pipe `p`. -/
def Pos.shuts (p : ℕ) (w : Bool) : Pos → ℕ
  | .pipeclose p' w' _ => if p' = p ∧ w' = w then 1 else 0
  | _ => 0

/-- The files for one end of the pipe `p`, and the processes that are about to close it. -/
def ends (p : ℕ) (w : Bool) (s : Kernel) : ℕ :=
  tally (File.ends p w) s.file + tally (fun P ↦ P.pos.shuts p w) s.proc

/-- One if the end is open. -/
def opens (p : ℕ) (w : Bool) (s : Kernel) : ℕ :=
  (s.pipe p).elim 0 fun P ↦ if P.isOpen w then 1 else 0

/-- What the place of a process says about the files. -/
structure Proc.Fine (file : FileNo → File) (P : Proc) : Prop where
  type : ∀ fd f, P.ofile fd = some f → (file f).type ≠ .none
  pipe1 : ∀ f₀, P.pos = .pipe1 f₀ → (file f₀).type = .none ∧ (file f₀).ref = 1
  pipe2 : ∀ f₀ f₁, P.pos = .pipe2 f₀ f₁ → f₀ ≠ f₁ ∧
    ((file f₀).type = .none ∧ (file f₀).ref = 1) ∧ (file f₁).type = .none ∧ (file f₁).ref = 1
  read : ∀ p n, P.pos = .read p n → ∃ fd f, P.ofile fd = some f ∧ (file f).IsEnd p false
  write : ∀ p n i, P.pos = .write p n i → ∃ fd f, P.ofile fd = some f ∧ (file f).IsEnd p true

/-- The ends of all pipes. -/
structure Ends (s : Kernel) : Prop where
  count : ∀ p w, ends p w s = opens p w s
  alive : ∀ p P, s.pipe p = some P → P.isOpen false ∨ P.isOpen true
  dir : ∀ f, (s.file f).type = .pipe → (s.file f).readable = !(s.file f).writable
  free : ∀ f, (s.file f).ref = 0 → (s.file f).type = .none
  fine : ∀ q, (s.proc q).Fine s.file

/-! ## References of other processes -/

theorem RefCount.add_le (h : RefCount s) {q' : Slot} (hne : q ≠ q') (f : FileNo) :
    (((s.proc q).refs f + (s.proc q').refs f : ℕ) : ℤ) ≤ (s.file f).ref := by
  have hle := add_le_tally (Proc.refs f) s.proc hne
  rw [h f, refs]
  exact_mod_cast hle

theorem Proc.refs_pos_of_ofile {P : Proc} {fd : Fd} {f : FileNo} (h : P.ofile fd = some f) :
    0 < P.refs f := by
  have hheld : 0 < held univ P.ofile f := held_pos_iff.mpr ⟨fd, mem_univ fd, h⟩
  rw [Proc.refs]
  omega

theorem cell_self (f : FileNo) : cell (some f) f = 1 := by simp [cell]

/-- What the rest of the kernel sees of a file. -/
def File.Like (x y : File) : Prop := x.type = y.type ∧ x.pipe = y.pipe ∧ x.writable = y.writable

/-- A file that a process refers to in the middle of a call is its own. -/
theorem Proc.Fine.congr {file file' : FileNo → File} {P P' : Proc} (h : P.Fine file)
    (hofile : P'.ofile = P.ofile) (hpos : P'.pos = P.pos)
    (hlike : ∀ f, 0 < P.refs f → (file' f).Like (file f))
    (hsame : ∀ f, 0 < P.refs f → (file f).ref = 1 → (file' f).ref = 1) : P'.Fine file' := by
  have hend : ∀ {fd f p w}, P.ofile fd = some f → (file f).IsEnd p w → (file' f).IsEnd p w := by
    rintro fd f p w hfd ⟨h₁, h₂, h₃⟩
    obtain ⟨l₁, l₂, l₃⟩ := hlike f (Proc.refs_pos_of_ofile hfd)
    exact ⟨l₁.trans h₁, l₂.trans h₂, l₃.trans h₃⟩
  have hown : ∀ {f}, 0 < P.refs f → (file f).type = .none ∧ (file f).ref = 1 →
      (file' f).type = .none ∧ (file' f).ref = 1 := fun hrefs hf ↦
    ⟨(hlike _ hrefs).1.trans hf.1, hsame _ hrefs hf.2⟩
  refine ⟨fun fd f hfd ↦ ?_, fun f₀ hq ↦ ?_, fun f₀ f₁ hq ↦ ?_, fun p n hq ↦ ?_,
    fun p n i hq ↦ ?_⟩
  · rw [hofile] at hfd
    rw [(hlike f (Proc.refs_pos_of_ofile hfd)).1]
    exact h.type fd f hfd
  · rw [hpos] at hq
    refine hown ?_ (h.pipe1 f₀ hq)
    rw [refs_of_pos hq, Pos.holds, cell_self]
    omega
  · rw [hpos] at hq
    obtain ⟨hne, h₀, h₁⟩ := h.pipe2 f₀ f₁ hq
    refine ⟨hne, hown ?_ h₀, hown ?_ h₁⟩
    · rw [refs_of_pos hq, Pos.holds, cell_self]
      omega
    · rw [refs_of_pos hq, Pos.holds, cell_self f₁]
      omega
  · rw [hpos] at hq
    obtain ⟨fd, f, hfd, hf⟩ := h.read p n hq
    exact ⟨fd, f, by rwa [hofile], hend hfd hf⟩
  · rw [hpos] at hq
    obtain ⟨fd, f, hfd, hf⟩ := h.write p n i hq
    exact ⟨fd, f, by rwa [hofile], hend hfd hf⟩

/-- All references to `f` are in the hand of `q`. -/
def Mine (q : Slot) (s : Kernel) (f : FileNo) : Prop := (s.file f).ref ≤ (s.proc q).pos.holds f

theorem Mine.of_unused {f : FileNo} (hf : (s.file f).ref = 0) : Mine q s f := by
  rw [Mine, hf]
  omega

/-- No descriptor leads to a file that is in the hand of a process. -/
theorem Mine.ofile_ne {f : FileNo} (hf : Mine q s f) (h : RefCount s) (q' : Slot) (fd : Fd) :
    (s.proc q').ofile fd ≠ some f := by
  intro hfd
  have hheld : 0 < held univ (s.proc q').ofile f := held_pos_iff.mpr ⟨fd, mem_univ fd, hfd⟩
  have hle : (s.proc q').refs f ≤ refs f s := le_tally (Proc.refs f) s.proc q'
  rw [Mine, h f] at hf
  rcases eq_or_ne q q' with rfl | hne
  · rw [Proc.refs] at hle
    omega
  · have hadd := h.add_le hne f
    rw [h f] at hadd
    rw [Proc.refs, Proc.refs] at hadd
    omega

/-- Other processes do not refer to a file that is in the hand of a process. -/
theorem Mine.refs_eq {f : FileNo} (hf : Mine q s f) (h : RefCount s) {q' : Slot} (hne : q' ≠ q) :
    (s.proc q').refs f = 0 := by
  have hadd := h.add_le hne.symm f
  rw [Mine] at hf
  rw [Proc.refs] at hadd
  omega

/-! ## What a move keeps -/

/-- A place in a call that says nothing about the files. -/
def Pos.Bare : Pos → Prop
  | .pipe1 _ | .pipe2 _ _ | .read _ _ | .write _ _ _ => False
  | _ => True

theorem Proc.Fine.bare {file : FileNo → File} {P : Proc}
    (htype : ∀ fd f, P.ofile fd = some f → (file f).type ≠ .none) (hpos : P.pos.Bare) :
    P.Fine file := by
  refine ⟨htype, fun f₀ hq ↦ ?_, fun f₀ f₁ hq ↦ ?_, fun p n hq ↦ ?_, fun p n i hq ↦ ?_⟩ <;>
  · rw [hq] at hpos
    exact hpos.elim

/-- What `Proc.Fine` asks of a place. -/
def Pos.Fits (file : FileNo → File) (ofile : Fd → Option FileNo) : Pos → Prop
  | .pipe1 f₀ => (file f₀).type = .none ∧ (file f₀).ref = 1
  | .pipe2 f₀ f₁ => f₀ ≠ f₁ ∧
    ((file f₀).type = .none ∧ (file f₀).ref = 1) ∧ (file f₁).type = .none ∧ (file f₁).ref = 1
  | .read p _ => ∃ fd f, ofile fd = some f ∧ (file f).IsEnd p false
  | .write p _ _ => ∃ fd f, ofile fd = some f ∧ (file f).IsEnd p true
  | _ => True

theorem Proc.Fine.of_fits {file : FileNo → File} {P : Proc} {x : Pos} (hpos : P.pos = x)
    (htype : ∀ fd f, P.ofile fd = some f → (file f).type ≠ .none) (hfits : x.Fits file P.ofile) :
    P.Fine file := by
  subst hpos
  refine ⟨htype, fun f₀ hq ↦ ?_, fun f₀ f₁ hq ↦ ?_, fun p n hq ↦ ?_, fun p n i hq ↦ ?_⟩ <;>
  · rw [hq] at hfits
    exact hfits

/-- The other processes see nothing of a move of `q`. -/
def Unseen (q : Slot) (s s' : Kernel) : Prop := ∀ q', q' ≠ q → ∀ f, 0 < (s.proc q').refs f →
  (s'.file f).Like (s.file f) ∧ ((s.file f).ref = 1 → (s'.file f).ref = 1)

theorem unseen_of_file_eq {s' : Kernel} (h : s'.file = s.file) : Unseen q s s' :=
  fun _ _ f _ ↦ by rw [h]; exact ⟨⟨rfl, rfl, rfl⟩, id⟩

theorem Mine.unseen {s' : Kernel} {f : FileNo} {x : File} (hf : Mine q s f) (h : RefCount s)
    (hfile : s'.file = update s.file f x) : Unseen q s s' := by
  intro q' hne f' hrefs
  have hne' : f' ≠ f := by
    rintro rfl
    rw [hf.refs_eq h hne] at hrefs
    exact absurd hrefs (lt_irrefl 0)
  rw [hfile, update_of_ne hne']
  exact ⟨⟨rfl, rfl, rfl⟩, id⟩

/-- A count changes by a process that refers to the file. -/
theorem unseen_addRef (h : RefCount s) {f : FileNo} (hq : 0 < (s.proc q).refs f) (d : ℤ) :
    Unseen q s (s.addRef f d) := by
  intro q' hne f' hrefs
  rw [Kernel.addRef_file]
  rcases eq_or_ne f' f with rfl | hne'
  · rw [update_self]
    refine ⟨⟨rfl, rfl, rfl⟩, fun hone ↦ ?_⟩
    have hadd := h.add_le hne f'
    omega
  · rw [update_of_ne hne']
    exact ⟨⟨rfl, rfl, rfl⟩, id⟩

theorem Ends.move (h : Ends s) (s' : Kernel) (hs' : ∀ q', (s'.proc q').core = (s.proc q').core)
    (hfile : Unseen q s s') {P : Proc} (hP : P.Fine s'.file)
    (hcount : ∀ p w, tally (File.ends p w) s'.file + P.pos.shuts p w + opens p w s =
      tally (File.ends p w) s.file + (s.proc q).pos.shuts p w + opens p w s')
    (halive : ∀ p P, s'.pipe p = some P → P.isOpen false ∨ P.isOpen true)
    (hdir : ∀ f, (s'.file f).type = .pipe → (s'.file f).readable = !(s'.file f).writable)
    (hfree : ∀ f, (s'.file f).ref = 0 → (s'.file f).type = .none) : Ends (s'.setProc q P) := by
  refine ⟨fun p w ↦ ?_, halive, hdir, hfree, fun q' ↦ ?_⟩
  · have htally := tally_update (fun P ↦ P.pos.shuts p w) s'.proc q P
    have hsame : tally (fun P ↦ P.pos.shuts p w) s'.proc = tally (fun P ↦ P.pos.shuts p w) s.proc :=
      tally_congr fun q' ↦ by rw [(Proc.core_eq_iff.mp (hs' q')).2.2]
    have hq : (s'.proc q).pos = (s.proc q).pos := (Proc.core_eq_iff.mp (hs' q)).2.2
    have hold := h.count p w
    have hnew := hcount p w
    rw [hsame] at htally
    simp only [hq] at htally
    rw [ends] at hold ⊢
    have hopens : opens p w (s'.setProc q P) = opens p w s' := rfl
    rw [Kernel.setProc_file, Kernel.setProc_proc, hopens]
    omega
  · rw [Kernel.setProc_proc, Kernel.setProc_file]
    rcases eq_or_ne q' q with rfl | hne
    · rwa [update_self]
    · rw [update_of_ne hne]
      obtain ⟨-, hofile, hpos⟩ := Proc.core_eq_iff.mp (hs' q')
      exact (h.fine q').congr hofile hpos (fun f hf ↦ (hfile q' hne f hf).1)
        fun f hf ↦ (hfile q' hne f hf).2

/-- A call goes on without touching a file or closing an end. -/
theorem Ends.goOn (h : Ends s) {x : Pos} (hq : (s.proc q).pos = x) (hx : ∀ p w, x.shuts p w = 0)
    {P : Proc} (hP : P.Fine s.file) (hpos : ∀ p w, P.pos.shuts p w = 0) : Ends (s.setProc q P) := by
  refine h.move s (fun _ ↦ rfl) (unseen_of_file_eq rfl) hP (fun p w ↦ ?_) h.alive h.dir h.free
  rw [hpos, hq, hx]

theorem Proc.Fine.stay {file : FileNo → File} {P P' : Proc} (h : P.Fine file)
    (hofile : P'.ofile = P.ofile) (hpos : P'.pos = P.pos) : P'.Fine file :=
  h.congr hofile hpos (fun _ _ ↦ ⟨rfl, rfl, rfl⟩) fun _ _ ↦ id

/-- The process goes on with fewer descriptors. -/
theorem Proc.Fine.drop {file : FileNo → File} {P P' : Proc} (h : P.Fine file)
    (hofile : ∀ fd f, P'.ofile fd = some f → P.ofile fd = some f) (hpos : P'.pos.Bare) :
    P'.Fine file := .bare (fun fd f hfd ↦ h.type fd f (hofile fd f hfd)) hpos

theorem ofile_of_setFd_none {P : Proc} {fd fd' : Fd} {f : FileNo}
    (h : (P.setFd fd none).ofile fd' = some f) : P.ofile fd' = some f := by
  rw [Proc.setFd_ofile] at h
  rcases eq_or_ne fd' fd with rfl | hne
  · rw [update_self] at h
    cases h
  · rwa [update_of_ne hne] at h

/-- A new descriptor, beside the old ones. -/
theorem ofile_setFd {P : Proc} {fd fd' : Fd} {f f' : FileNo}
    (h : (P.setFd fd (some f)).ofile fd' = some f') : f' = f ∨ P.ofile fd' = some f' := by
  rw [Proc.setFd_ofile] at h
  rcases eq_or_ne fd' fd with rfl | hne
  · rw [update_self] at h
    exact .inl (Option.some.inj h).symm
  · rw [update_of_ne hne] at h
    exact .inr h

theorem resume_bare (P : Proc) (k : Then) : (P.resume k).pos.Bare := by cases k <;> trivial

@[simp] theorem resume_shuts (P : Proc) (k : Then) (p : ℕ) (w : Bool) :
    (P.resume k).pos.shuts p w = 0 := by cases k <;> rfl

theorem tally_ends_of_like {file file' : FileNo → File} (h : ∀ f, (file' f).Like (file f)) (p : ℕ)
    (w : Bool) : tally (File.ends p w) file' = tally (File.ends p w) file := by
  refine tally_congr fun f ↦ ?_
  obtain ⟨h₁, h₂, h₃⟩ := h f
  exact if_congr (by rw [File.IsEnd, File.IsEnd, h₁, h₂, h₃]) rfl rfl

theorem ends_of_none {x : File} (h : x.type = .none) (p : ℕ) (w : Bool) : x.ends p w = 0 :=
  if_neg fun hend ↦ by
    rw [hend.1] at h
    cases h

theorem File.ends_toEnd (x : File) (p p' : ℕ) (w w' : Bool) :
    (x.toEnd p w).ends p' w' = if p = p' ∧ w = w' then 1 else 0 :=
  if_congr ⟨fun hend ↦ hend.2, fun hend ↦ ⟨rfl, hend⟩⟩ rfl rfl

namespace Ends

/-- A reference to a file is added or dropped, but not the last one. -/
theorem addRef (h : Ends s) (hr : RefCount s) {f : FileNo} {d : ℤ} (hq : 0 < (s.proc q).refs f)
    (hd : (s.file f).ref + d ≠ 0) {x : Pos} (hx : (s.proc q).pos = x)
    (hshuts : ∀ p w, x.shuts p w = 0) {P : Proc}
    (htype : ∀ fd f', P.ofile fd = some f' → (s.file f').type ≠ .none) (hpos : P.pos.Bare)
    (hP : ∀ p w, P.pos.shuts p w = 0) :
    Ends ((s.addRef f d).setProc q P) := by
  have hlike : ∀ f', ((s.addRef f d).file f').Like (s.file f') := by
    intro f'
    rw [Kernel.addRef_file]
    rcases eq_or_ne f' f with rfl | hne
    · rw [update_self]
      exact ⟨rfl, rfl, rfl⟩
    · rw [update_of_ne hne]
      exact ⟨rfl, rfl, rfl⟩
  refine h.move (s.addRef f d) (fun _ ↦ rfl) (unseen_addRef hr hq d)
    (.bare (fun fd f' hfd ↦ ?_) hpos) (fun p w ↦ ?_) h.alive (fun f' htype' ↦ ?_) fun f' href ↦ ?_
  · rw [(hlike f').1]
    exact htype fd f' hfd
  · rw [tally_ends_of_like hlike, hP, hx, hshuts]
    rfl
  · rw [(hlike f').1] at htype'
    have hdir := h.dir f' htype'
    rw [Kernel.addRef_file]
    rcases eq_or_ne f' f with rfl | hne
    · rwa [update_self]
    · rwa [update_of_ne hne]
  · rw [(hlike f').1]
    rw [Kernel.addRef_file] at href
    rcases eq_or_ne f' f with rfl | hne
    · rw [update_self] at href
      exact absurd href hd
    · rw [update_of_ne hne] at href
      exact h.free f' href

/-- The file table changes at a file that the process has in its hand. -/
theorem mine (h : Ends s) (hr : RefCount s) (s' : Kernel) {f : FileNo} {y : File}
    (hmine : Mine q s f) (hfile : s'.file = update s.file f y) (hpipe : s'.pipe = s.pipe)
    (hproc : s'.proc = s.proc) {P : Proc} (hP : P.Fine s'.file)
    (hcount : ∀ p w, y.ends p w + P.pos.shuts p w =
      (s.file f).ends p w + (s.proc q).pos.shuts p w)
    (hdir : y.type = .pipe → y.readable = !y.writable) (hfree : y.ref = 0 → y.type = .none) :
    Ends (s'.setProc q P) := by
  refine h.move s' (fun q' ↦ by rw [hproc]) (hmine.unseen hr hfile) hP (fun p w ↦ ?_)
    (by rw [hpipe]; exact h.alive) (fun f' htype ↦ ?_) fun f' href ↦ ?_
  · have htally := tally_update (File.ends p w) s.file f y
    have hnew := hcount p w
    have hopens : opens p w s' = opens p w s := by rw [opens, opens, hpipe]
    rw [hopens, hfile]
    omega
  · rw [hfile] at htype ⊢
    rcases eq_or_ne f' f with rfl | hne
    · rw [update_self] at htype ⊢
      exact hdir htype
    · rw [update_of_ne hne] at htype ⊢
      exact h.dir f' htype
  · rw [hfile] at href ⊢
    rcases eq_or_ne f' f with rfl | hne
    · rw [update_self] at href ⊢
      exact hfree href
    · rw [update_of_ne hne] at href ⊢
      exact h.free f' href

/-- Descriptors do not lead to a file in the hand of a process, whatever becomes of it. -/
theorem type_update (h : Ends s) (hr : RefCount s) {f : FileNo} (hmine : Mine q s f) (y : File)
    {q' : Slot} {fd : Fd} {f' : FileNo} (hfd : (s.proc q').ofile fd = some f') :
    (update s.file f y f').type ≠ .none := by
  have hne : f' ≠ f := by
    rintro rfl
    exact hmine.ofile_ne hr q' fd hfd
  rw [update_of_ne hne]
  exact (h.fine q').type fd f' hfd

/-- The ends of a pipe stay as they are while its contents change. -/
theorem store (h : Ends s) {P P' : Pipe} (hp : s.pipe p = some P)
    (hopen : ∀ w, P'.isOpen w = P.isOpen w) (s' : Kernel) (hfile : s'.file = s.file)
    (hpipe : s'.pipe = update s.pipe p (some P'))
    (hs' : ∀ q', (s'.proc q').core = (s.proc q').core) {x : Pos} (hx : (s.proc q).pos = x)
    (hshuts : ∀ p w, x.shuts p w = 0) {Q : Proc} (hQ : Q.Fine s.file)
    (hpos : ∀ p w, Q.pos.shuts p w = 0) : Ends (s'.setProc q Q) := by
  have hopens : ∀ p' w, opens p' w s' = opens p' w s := by
    intro p' w
    rw [opens, opens, hpipe]
    rcases eq_or_ne p' p with rfl | hne
    · rw [update_self, hp]
      simp only [Option.elim_some, hopen]
    · rw [update_of_ne hne]
  refine h.move s' hs' (unseen_of_file_eq hfile) (by rwa [hfile]) (fun p' w ↦ ?_)
    (fun p' P'' hP'' ↦ ?_) (by rw [hfile]; exact h.dir) (by rw [hfile]; exact h.free)
  · rw [hfile, hpos, hx, hshuts, hopens]
  · rw [hpipe] at hP''
    rcases eq_or_ne p' p with rfl | hne
    · rw [update_self] at hP''
      obtain rfl := Option.some.inj hP''
      rw [hopen, hopen]
      exact h.alive p' P hp
    · rw [update_of_ne hne] at hP''
      exact h.alive p' P'' hP''

end Ends

@[simp] theorem Pipe.isOpen_store (P : Pipe) (b : Byte) (w : Bool) :
    (P.store b).isOpen w = P.isOpen w := rfl

theorem Pipe.isOpen_put (addr : ℕ → Byte) (n i : ℕ) (P : Pipe) (w : Bool) :
    (P.put addr n i).2.isOpen w = P.isOpen w := by
  induction n generalizing i P with
  | zero => rfl
  | succ n ih =>
    rw [put]
    split
    · rfl
    · rw [ih, isOpen_store]

theorem Pipe.isOpen_get (n : ℕ) (P : Pipe) (w : Bool) : (P.get n).2.isOpen w = P.isOpen w := by
  induction n generalizing P with
  | zero => rfl
  | succ n ih =>
    rw [get]
    split
    · rfl
    · exact ih _

theorem Pipe.isOpen_shut (P : Pipe) (w w' : Bool) :
    (P.shut w).isOpen w' = (P.isOpen w' && w' ≠ w) := by
  cases w <;> cases w' <;> simp [Pipe.shut, Pipe.isOpen]

/-- No open end is lost when the page is freed. -/
theorem Pipe.elim_kept (P : Pipe) (w : Bool) :
    P.kept.elim 0 (fun P ↦ if P.isOpen w then 1 else 0) = if P.isOpen w then 1 else 0 := by
  rw [Pipe.kept]
  split
  · next hboth =>
    have hclosed : P.isOpen w = false := by
      cases w
      · exact hboth.1
      · exact hboth.2
    rw [hclosed]
    rfl
  · rfl

namespace Ends

theorem pipeclose (h : Ends s) {k : Then} {P : Pipe} (hq : (s.proc q).pos = .pipeclose p w k)
    (hp : s.pipe p = some P) : Ends (((s.setPipe p (P.shut w).kept).wakeup
      (if w then .nread p else .nwrite p)).setProc q ((s.proc q).resume k)) := by
  have hself : (s.proc q).pos.shuts p w = 1 := by
    rw [hq]
    exact if_pos ⟨rfl, rfl⟩
  have hopen : P.isOpen w := by
    have hcount := h.count p w
    have hle := le_tally (fun P ↦ P.pos.shuts p w) s.proc q
    rw [hself] at hle
    rw [ends, opens, hp, Option.elim_some] at hcount
    by_contra hclosed
    rw [if_neg hclosed] at hcount
    omega
  have hopens : ∀ p' w', opens p' w' s = (s.proc q).pos.shuts p' w' +
      opens p' w' ((s.setPipe p (P.shut w).kept).wakeup (if w then .nread p else .nwrite p)) := by
    intro p' w'
    rw [opens, opens, Kernel.wakeup_pipe, Kernel.setPipe_pipe, hq, Pos.shuts]
    rcases eq_or_ne p' p with rfl | hne
    · rw [update_self, hp, Option.elim_some, Pipe.elim_kept, Pipe.isOpen_shut]
      rcases eq_or_ne w' w with rfl | hne
      · simp [hopen]
      · simp [hne, hne.symm]
    · rw [update_of_ne hne, if_neg fun hand ↦ hne hand.1.symm, zero_add]
  refine h.move ((s.setPipe p (P.shut w).kept).wakeup _) (fun _ ↦ rfl) (unseen_of_file_eq rfl)
    ((h.fine q).drop (fun fd f hfd ↦ by rwa [Proc.resume_ofile] at hfd) (resume_bare _ _))
    (fun p' w' ↦ ?_) (fun p' P' hP' ↦ ?_) h.dir h.free
  · rw [resume_shuts, hopens, Kernel.wakeup_file, Kernel.setPipe_file]
    omega
  · rw [Kernel.wakeup_pipe, Kernel.setPipe_pipe] at hP'
    rcases eq_or_ne p' p with rfl | hne
    · rw [update_self, Pipe.kept] at hP'
      split at hP'
      · cases hP'
      · next hboth =>
        obtain rfl := Option.some.inj hP'
        rw [not_and_or, Bool.not_eq_false, Bool.not_eq_false] at hboth
        exact hboth
    · rw [update_of_ne hne] at hP'
      exact h.alive p' P' hP'

theorem pipe2_mine (h : Ends s) {f₀ f₁ : FileNo} (hq : (s.proc q).pos = .pipe2 f₀ f₁) :
    f₀ ≠ f₁ ∧ Mine q s f₀ ∧ Mine q s f₁ ∧ (s.file f₀).type = .none ∧ (s.file f₁).type = .none := by
  obtain ⟨hne, ⟨htype₀, href₀⟩, htype₁, href₁⟩ := (h.fine q).pipe2 f₀ f₁ hq
  refine ⟨hne, ?_, ?_, htype₀, htype₁⟩
  · rw [Mine, href₀, hq, Pos.holds, cell_self]
    omega
  · rw [Mine, href₁, hq, Pos.holds, cell_self f₁]
    omega

/-- A new pipe has both its ends. -/
theorem setEnds (h : Ends s) (hr : RefCount s) {f₀ f₁ : FileNo}
    (hq : (s.proc q).pos = .pipe2 f₀ f₁) (hp : s.pipe p = none) {P : Proc}
    (hofile : ∀ fd f, P.ofile fd = some f → f = f₀ ∨ f = f₁ ∨ (s.proc q).ofile fd = some f)
    (hbare : P.pos.Bare) (hpos : ∀ p w, P.pos.shuts p w = 0) :
    Ends ((s.setEnds f₀ f₁ p).setProc q P) := by
  obtain ⟨hne, hmine₀, hmine₁, htype₀, htype₁⟩ := h.pipe2_mine hq
  have hfile₀ : (s.setEnds f₀ f₁ p).file f₀ = (s.file f₀).toEnd p false := by
    rw [Kernel.setEnds_file, update_of_ne hne, update_self]
  have hfile₁ : (s.setEnds f₀ f₁ p).file f₁ = (s.file f₁).toEnd p true := by
    rw [Kernel.setEnds_file, update_self]
  have hother : ∀ f, f ≠ f₀ → f ≠ f₁ → (s.setEnds f₀ f₁ p).file f = s.file f := by
    intro f hf₀ hf₁
    rw [Kernel.setEnds_file, update_of_ne hf₁, update_of_ne hf₀]
  have hunseen : Unseen q s (s.setEnds f₀ f₁ p) := by
    intro q' hne' f hrefs
    have hpos : ∀ {f'}, Mine q s f' → f ≠ f' := by
      rintro f' hmine rfl
      rw [hmine.refs_eq hr hne'] at hrefs
      exact absurd hrefs (lt_irrefl 0)
    rw [hother f (hpos hmine₀) (hpos hmine₁)]
    exact ⟨⟨rfl, rfl, rfl⟩, id⟩
  refine h.move (s.setEnds f₀ f₁ p) (fun _ ↦ rfl) hunseen (.bare (fun fd f hfd ↦ ?_) hbare)
    (fun p' w' ↦ ?_) (fun p' P' hP' ↦ ?_) (fun f htype ↦ ?_) fun f href ↦ ?_
  · rcases hofile fd f hfd with rfl | rfl | hold
    · rw [hfile₀]
      exact FileType.noConfusion
    · rw [hfile₁]
      exact FileType.noConfusion
    · have hf₀ : f ≠ f₀ := fun he ↦ hmine₀.ofile_ne hr q fd (he ▸ hold)
      have hf₁ : f ≠ f₁ := fun he ↦ hmine₁.ofile_ne hr q fd (he ▸ hold)
      rw [hother f hf₀ hf₁]
      exact (h.fine q).type fd f hold
  · have htally₀ := tally_update (File.ends p' w') s.file f₀ ((s.file f₀).toEnd p false)
    have htally₁ := tally_update (File.ends p' w')
      (update s.file f₀ ((s.file f₀).toEnd p false)) f₁ ((s.file f₁).toEnd p true)
    rw [update_of_ne hne.symm, ends_of_none htype₁, File.ends_toEnd] at htally₁
    rw [ends_of_none htype₀, File.ends_toEnd] at htally₀
    have hopens : opens p' w' (s.setEnds f₀ f₁ p) = (if p = p' then 1 else 0) + opens p' w' s := by
      rw [opens, opens, Kernel.setEnds_pipe]
      rcases eq_or_ne p' p with rfl | hne'
      · rw [update_self, hp, if_pos rfl]
        cases w' <;> rfl
      · rw [update_of_ne hne', if_neg hne'.symm, zero_add]
    rw [hpos, hq, hopens, Kernel.setEnds_file]
    cases w' <;> by_cases hp' : p = p' <;> simp [hp', Pos.shuts] at * <;> omega
  · rw [Kernel.setEnds_pipe] at hP'
    rcases eq_or_ne p' p with rfl | hne'
    · rw [update_self] at hP'
      obtain rfl := Option.some.inj hP'
      exact .inl rfl
    · rw [update_of_ne hne'] at hP'
      exact h.alive p' P' hP'
  · rcases eq_or_ne f f₀ with rfl | hf₀
    · rw [hfile₀]
      rfl
    rcases eq_or_ne f f₁ with rfl | hf₁
    · rw [hfile₁]
      rfl
    rw [hother f hf₀ hf₁] at htype ⊢
    exact h.dir f htype
  · rw [setEnds_ref] at href
    have hf₀ : f ≠ f₀ := by
      rintro rfl
      rw [((h.fine q).pipe2 f f₁ hq).2.1.2] at href
      cases href
    have hf₁ : f ≠ f₁ := by
      rintro rfl
      rw [((h.fine q).pipe2 f₀ f hq).2.2.2] at href
      cases href
    rw [hother f hf₀ hf₁]
    exact h.free f href

/-- A file that nobody refers to is taken. -/
theorem refer (h : Ends s) (hr : RefCount s) {f : FileNo} (hf : (s.file f).ref = 0) {x : Pos}
    (hx : (s.proc q).pos = x) (hshuts : ∀ p w, x.shuts p w = 0) {P : Proc}
    (hP : P.Fine (s.refer f).file) (hpos : ∀ p w, P.pos.shuts p w = 0) :
    Ends ((s.refer f).setProc q P) := by
  refine h.mine hr (s.refer f) (.of_unused hf) rfl rfl rfl hP (fun p w ↦ ?_) (fun htype ↦ ?_)
    fun href ↦ absurd href one_ne_zero
  · rw [hpos, hx, hshuts]
    rfl
  · exact h.dir f htype

/-- The last reference to a file is dropped. -/
theorem forget (h : Ends s) (hr : RefCount s) {f : FileNo} {k : Then}
    (hq : (s.proc q).pos = .close f k) (href : (s.file f).ref = 1) {P : Proc}
    (hofile : P.ofile = (s.proc q).ofile) (hbare : P.pos.Bare)
    (hcount : ∀ p w, P.pos.shuts p w = (s.file f).ends p w) :
    Ends ((s.forget f).setProc q P) := by
  have hmine : Mine q s f := by
    rw [Mine, href, hq, Pos.holds, cell_self]
    omega
  refine h.mine hr (s.forget f) hmine rfl rfl rfl (.bare (fun fd f' hfd ↦ ?_) hbare) (fun p w ↦ ?_)
    (fun htype ↦ by cases htype) fun _ ↦ rfl
  · rw [hofile] at hfd
    exact h.type_update hr hmine _ hfd
  · rw [hcount, hq, ends_of_none rfl, zero_add]
    rfl

/-- A process stays where it is. -/
theorem stay (h : Ends s) {P : Proc} (hofile : P.ofile = (s.proc q).ofile)
    (hpos : P.pos = (s.proc q).pos) : Ends (s.setProc q P) := by
  refine h.move s (fun _ ↦ rfl) (unseen_of_file_eq rfl) ((h.fine q).stay hofile hpos)
    (fun p w ↦ ?_) h.alive h.dir h.free
  rw [hpos]

/-- `fork` has copied a descriptor. -/
theorem copy (h : Ends s) (hr : RefCount s) (hs : Shape s) {np : Slot} {fd : ℕ} {f : FileNo}
    (hq : (s.proc q).pos = .fork np fd) (hfd : fd < nofile)
    (hf : (s.proc q).ofile ⟨fd, hfd⟩ = some f) :
    Ends (((s.addRef f 1).setProc np ((s.proc np).setFd ⟨fd, hfd⟩ (some f))).setProc q
      ((s.proc q).goto (.fork np (fd + 1)))) := by
  have hne := hs.parent_ne hq
  have hone : 1 ≤ (s.file f).ref := hr.one_le (Proc.refs_pos_of_ofile hf)
  have h' : Ends ((s.addRef f 1).setProc q ((s.proc q).goto (.fork np (fd + 1)))) :=
    h.addRef hr (Proc.refs_pos_of_ofile hf) (by omega) hq (fun _ _ ↦ rfl)
      (h.fine q).type trivial fun _ _ ↦ rfl
  have hself : ((s.addRef f 1).setProc q ((s.proc q).goto (.fork np (fd + 1)))).proc np =
      s.proc np := by
    rw [Kernel.setProc_proc, update_of_ne hne.symm]
    rfl
  have hidle : (s.proc np).pos = .user :=
    (hs.ok np).idle (by rw [hs.child q np fd hq]; exact ProcState.noConfusion)
  rw [Kernel.setProc_comm _ hne.symm]
  refine h'.goOn (x := .user) (by rw [hself, hidle]) (fun _ _ ↦ rfl)
    (.bare (fun fd' f' hfd' ↦ ?_) (by rw [Proc.setFd_pos, hidle]; trivial))
    fun p w ↦ by rw [Proc.setFd_pos, hidle]; rfl
  rcases ofile_setFd hfd' with rfl | hold
  · refine (h'.fine q).type ⟨fd, hfd⟩ _ ?_
    rw [Kernel.setProc_proc, update_self]
    exact hf
  · exact (h'.fine np).type fd' f' (by rwa [hself])

theorem trans (h : Ends s) (hr : RefCount s) (hs : Shape s) (ht : Trans s a t) : Ends t := by
  cases ht with
  | fail ha hq =>
    exact h.goOn hq.1.2 (fun _ _ ↦ rfl) ((h.fine _).drop (fun _ _ ↦ id) trivial) fun _ _ ↦ rfl
  | @sysDup q fd fd₀ fd' f hq hf hfree href =>
    refine h.addRef hr (Proc.refs_pos_of_ofile hf) (by omega) hq.1.2 (fun _ _ ↦ rfl)
      (fun fd'' f' hfd ↦ ?_) trivial fun _ _ ↦ rfl
    rcases ofile_setFd hfd with rfl | hold
    · exact (h.fine q).type fd₀ _ hf
    · exact (h.fine q).type fd'' f' hold
  | @openFull q omode f hq hf =>
    exact h.refer hr hf hq.1.2 (fun _ _ ↦ rfl)
      (.bare (fun fd f' hfd ↦ h.type_update hr (q := q) (.of_unused hf) _ hfd) trivial)
      fun _ _ ↦ rfl
  | @sysOpen q omode f fd readable writable hq hf hfree =>
    refine h.mine hr (s.setFile f _) (.of_unused hf) rfl rfl rfl
      (.bare (fun fd' f' hfd ↦ ?_) trivial) (fun p w ↦ ?_) (fun htype ↦ FileType.noConfusion htype)
      fun href ↦ absurd href one_ne_zero
    · rcases ofile_setFd hfd with rfl | hold
      · rw [Kernel.setFile_file, update_self]
        exact fun htype ↦ FileType.noConfusion htype
      · exact h.type_update hr (q := q) (.of_unused hf) _ hold
    · rw [ends_of_none (h.free f hf), hq.1.2]
      rfl
  | @sysClose q n fd f hq hf =>
    exact h.goOn hq.1.2 (fun _ _ ↦ rfl)
      ((h.fine q).drop (fun _ _ ↦ ofile_of_setFd_none) trivial) fun _ _ ↦ rfl
  | @sysPipe q f₀ hq hf =>
    refine h.refer hr hf hq.1.2 (fun _ _ ↦ rfl) ?_ fun _ _ ↦ rfl
    refine .of_fits (x := .pipe1 f₀) rfl
      (fun fd f' hfd ↦ h.type_update hr (q := q) (.of_unused hf) _ hfd) ?_
    rw [Pos.Fits, Kernel.refer_file, update_self]
    exact ⟨h.free _ hf, rfl⟩
  | pipeallocFail hq =>
    exact h.goOn hq (fun _ _ ↦ rfl) ((h.fine _).drop (fun _ _ ↦ id) trivial) fun _ _ ↦ rfl
  | @pipealloc q f₀ f₁ hq hf =>
    refine h.refer hr hf hq (fun _ _ ↦ rfl) ?_ fun _ _ ↦ rfl
    refine .of_fits (x := .pipe2 f₀ f₁) rfl
      (fun fd f' hfd ↦ h.type_update hr (q := q) (.of_unused hf) _ hfd) ?_
    have hold := (h.fine q).pipe1 _ hq
    have hne : f₀ ≠ f₁ := by
      rintro rfl
      rw [hf] at hold
      exact absurd hold.2 zero_ne_one
    rw [Pos.Fits, Kernel.refer_file, update_of_ne hne, update_self]
    exact ⟨hne, hold, h.free _ hf, rfl⟩
  | kallocFail hq =>
    exact h.goOn hq (fun _ _ ↦ rfl) ((h.fine _).drop (fun _ _ ↦ id) trivial) fun _ _ ↦ rfl
  | pipeFull hq hp =>
    exact h.setEnds hr hq hp (fun _ _ hfd ↦ .inr (.inr hfd)) trivial fun _ _ ↦ rfl
  | @pipe q f₀ f₁ p fd₀ fd₁ hq hp hfree₀ hfree₁ hne =>
    refine h.setEnds hr hq hp (fun fd f hfd ↦ ?_) trivial fun _ _ ↦ rfl
    rcases ofile_setFd hfd with rfl | hfd
    · exact .inr (.inl rfl)
    · exact (ofile_setFd hfd).imp_right .inr
  | @sysRead q n fd m f hq hf hread htype =>
    have hend : (s.file f).IsEnd (s.file f).pipe false := by
      refine ⟨htype, rfl, ?_⟩
      have hdir := h.dir f htype
      rw [hread] at hdir
      simpa using hdir
    exact h.goOn hq.1.2 (fun _ _ ↦ rfl) (.of_fits rfl (h.fine q).type ⟨fd, f, hf, hend⟩)
      fun _ _ ↦ rfl
  | @sysWrite q n fd m f hq hf hwrite htype =>
    exact h.goOn hq.1.2 (fun _ _ ↦ rfl)
      (.of_fits rfl (h.fine q).type ⟨fd, f, hf, htype, rfl, hwrite⟩) fun _ _ ↦ rfl
  | inode ha => exact h
  | @fork q np hq hnp =>
    have hne : q ≠ np := by
      rintro rfl
      rw [hq.1.1] at hnp
      cases hnp
    have hself : (s.setProc np { s.proc np with state := .embryo }).proc q = s.proc q := by
      rw [Kernel.setProc_proc, update_of_ne hne]
    have h' : Ends (s.setProc np { s.proc np with state := .embryo }) := h.stay rfl rfl
    rw [← hself]
    exact h'.goOn (x := .user) (by rw [hself, hq.1.2]) (fun _ _ ↦ rfl)
      ((h'.fine q).drop (fun _ _ ↦ id) trivial) fun _ _ ↦ rfl
  | exit hq hinit =>
    exact h.goOn hq.2 (fun _ _ ↦ rfl) ((h.fine _).drop (fun _ _ ↦ id) trivial) fun _ _ ↦ rfl
  | wait hq => exact h.stay rfl rfl
  | kill => exact h.stay rfl rfl
  | @drop q f k hq href =>
    refine h.addRef hr ?_ (by omega) hq (fun _ _ ↦ rfl) (fun fd f' hfd ↦ ?_) (resume_bare _ _)
      fun p w ↦ resume_shuts _ _ _ _
    · rw [refs_of_pos hq, Pos.holds, cell_self]
      omega
    · rw [Proc.resume_ofile] at hfd
      exact (h.fine q).type fd f' hfd
  | @dropLast q f k hq href htype =>
    refine h.forget hr hq href (Proc.resume_ofile _ _) (resume_bare _ _) fun p w ↦ ?_
    rw [resume_shuts, File.ends, if_neg fun hend ↦ htype hend.1]
  | @dropEnd q f k hq href htype =>
    refine h.forget hr hq href rfl trivial fun p w ↦ ?_
    exact if_congr ⟨fun hand ↦ ⟨htype, hand⟩, fun hend ↦ hend.2⟩ rfl rfl
  | pipeclose hq hp => exact h.pipeclose hq hp
  | readKilled hq hawake hp hempty hkill =>
    exact h.goOn hq (fun _ _ ↦ rfl) ((h.fine _).drop (fun _ _ ↦ id) trivial) fun _ _ ↦ rfl
  | readSleep hq hawake hp hempty hkill => exact h.stay rfl rfl
  | @piperead q p n P l P' hq hawake hp hmore hget =>
    refine h.store hp (fun w ↦ ?_) ((s.setPipe p (some P')).wakeup _) rfl rfl (fun _ ↦ rfl) hq
      (fun _ _ ↦ rfl) ((h.fine q).drop (fun _ _ ↦ id) trivial) fun _ _ ↦ rfl
    rw [← Pipe.isOpen_get n.toNat P w, hget]
  | @pipewrite q p n i P addr j P' hq hawake hp hput hdone =>
    refine h.store hp (fun w ↦ ?_) ((s.setPipe p (some P')).wakeup _) rfl rfl (fun _ ↦ rfl) hq
      (fun _ _ ↦ rfl) ((h.fine q).drop (fun _ _ ↦ id) trivial) fun _ _ ↦ rfl
    rw [← Pipe.isOpen_put addr (n.toNat - i) i P w, hput]
  | @writeBroken q p n i P addr j P' hq hawake hp hput hfull hbroken =>
    refine h.store hp (fun w ↦ ?_) (s.setPipe p (some P')) rfl rfl (fun _ ↦ rfl) hq
      (fun _ _ ↦ rfl) ((h.fine q).drop (fun _ _ ↦ id) trivial) fun _ _ ↦ rfl
    rw [← Pipe.isOpen_put addr (n.toNat - i) i P w, hput]
  | @writeSleep q p n i P addr j P' hq hawake hp hput hfull hreadopen hkill =>
    refine h.store hp (fun w ↦ ?_) ((s.setPipe p (some P')).wakeup _) rfl rfl (fun _ ↦ rfl) hq
      (fun _ _ ↦ rfl) (.of_fits rfl (h.fine q).type ((h.fine q).write p n i hq)) fun _ _ ↦ rfl
    rw [← Pipe.isOpen_put addr (n.toNat - i) i P w, hput]
  | forkSkip hq hfd hf =>
    exact h.goOn hq (fun _ _ ↦ rfl) ((h.fine _).drop (fun _ _ ↦ id) trivial) fun _ _ ↦ rfl
  | forkDup hq hfd hf href => exact h.copy hr hs hq hfd hf
  | @forkEnd q np fd hq hfd =>
    have hself : (s.setProc np { s.proc np with state := .active }).proc q = s.proc q := by
      rw [Kernel.setProc_proc, update_of_ne (hs.parent_ne hq)]
    have h' : Ends (s.setProc np { s.proc np with state := .active }) := h.stay rfl rfl
    rw [← hself]
    exact h'.goOn (x := .fork np fd) (by rw [hself, hq]) (fun _ _ ↦ rfl)
      ((h'.fine q).drop (fun _ _ ↦ id) trivial) fun _ _ ↦ rfl
  | exitSkip hq hfd hf =>
    exact h.goOn hq (fun _ _ ↦ rfl) ((h.fine _).drop (fun _ _ ↦ id) trivial) fun _ _ ↦ rfl
  | exitClose hq hfd hf =>
    exact h.goOn hq (fun _ _ ↦ rfl)
      ((h.fine _).drop (fun _ _ ↦ ofile_of_setFd_none) trivial) fun _ _ ↦ rfl
  | exitEnd hq hfd =>
    exact h.goOn hq (fun _ _ ↦ rfl) ((h.fine _).drop (fun _ _ ↦ id) trivial) fun _ _ ↦ rfl

end Ends

/-! ## Runs -/

/-- The invariants of the descriptor layer. -/
structure Good (s : Kernel) : Prop where
  shape : Shape s
  refs : RefCount s
  ends : Ends s

theorem good_boot : Good boot := by
  refine ⟨⟨fun q ↦ ⟨fun _ ↦ rfl, fun _ _ ↦ rfl, fun _ _ ↦ rfl⟩, nofun, nofun, nofun⟩,
    fun f ↦ ?_, ⟨fun p w ↦ ?_, nofun, nofun, fun _ _ ↦ rfl, fun q ↦ ⟨nofun, nofun, nofun, nofun,
      nofun⟩⟩⟩
  · have hrefs : refs f boot = 0 :=
      tally_eq_zero fun q ↦ by
        rw [Proc.refs, held_eq_zero_of_none (m := (boot.proc q).ofile) fun _ _ ↦ rfl]
        rfl
    rw [hrefs]
    rfl
  · have hfile : tally (File.ends p w) boot.file = 0 := tally_eq_zero fun _ ↦ ends_of_none rfl p w
    have hproc : tally (fun P ↦ P.pos.shuts p w) boot.proc = 0 := tally_eq_zero fun _ ↦ rfl
    rw [ends, hfile, hproc]
    rfl

theorem Good.trans (h : Good s) (ht : Trans s a t) : Good t :=
  ⟨h.shape.trans ht, h.refs.trans h.shape ht, h.ends.trans h.refs h.shape ht⟩

theorem Reach.good (h : Reach s) : Good s := by
  refine h.invariant (P := Good) ?_ fun hs hstep _ ↦ hs.trans (trans_of_step hstep)
  rintro s rfl
  exact good_boot

/-- **Reference counts.** In every state that is reached, the count of a file is the number of
descriptors that lead to it, in all processes, and of the references in the middle of calls. -/
theorem refcount_exact (h : Reach s) (f : FileNo) : (s.file f).ref = refs f s := h.good.refs f

theorem refs_piped : refs ⟨0, by decide⟩ (piped []) = 2 := by
  have href : ((piped []).file ⟨0, by decide⟩).ref = 2 := by decide +kernel
  have hrefs := refcount_exact (reach_piped [] (by decide +kernel)) ⟨0, by decide⟩
  omega

namespace Ends

theorem exists_of_pos (h : Ends s) (hpos : 0 < ends p w s) :
    ∃ P, s.pipe p = some P ∧ P.isOpen w = true := by
  have hcount := h.count p w
  rw [opens] at hcount
  cases hp : s.pipe p with
  | none =>
    rw [hp, Option.elim_none] at hcount
    omega
  | some P =>
    refine ⟨P, rfl, ?_⟩
    by_contra hclosed
    rw [hp, Option.elim_some, if_neg hclosed] at hcount
    omega

theorem exists_of_shuts (h : Ends s) {k : Then} (hq : (s.proc q).pos = .pipeclose p w k) :
    ∃ P, s.pipe p = some P ∧ P.isOpen w = true := by
  have hself : (s.proc q).pos.shuts p w = 1 := by
    rw [hq]
    exact if_pos ⟨rfl, rfl⟩
  have hle := le_tally (fun P ↦ P.pos.shuts p w) s.proc q
  exact h.exists_of_pos (by rw [ends]; omega)

theorem exists_of_isEnd (h : Ends s) {f : FileNo} (hf : (s.file f).IsEnd p w) :
    ∃ P, s.pipe p = some P ∧ P.isOpen w = true := by
  have hle := le_tally (File.ends p w) s.file f
  rw [File.ends, if_pos hf] at hle
  exact h.exists_of_pos (by rw [ends]; omega)

theorem exists_of_read (h : Ends s) {n : ℤ} (hq : (s.proc q).pos = .read p n) :
    ∃ P, s.pipe p = some P ∧ P.isOpen false = true := by
  obtain ⟨fd, f, -, hf⟩ := (h.fine q).read p n hq
  exact h.exists_of_isEnd hf

theorem exists_of_write (h : Ends s) {n : ℤ} {i : ℕ} (hq : (s.proc q).pos = .write p n i) :
    ∃ P, s.pipe p = some P ∧ P.isOpen true = true := by
  obtain ⟨fd, f, -, hf⟩ := (h.fine q).write p n i hq
  exact h.exists_of_isEnd hf

end Ends

/-- The page `p` holds a pipe exactly as long as one of its ends is open: as long as there is a file
for it, or a process that is about to close it. -/
structure Held (p : ℕ) (s : Kernel) : Prop where
  count : ∀ w, ends p w s = opens p w s
  free : s.pipe p = none ↔ ∀ w, ends p w s = 0
  read : ∀ q n, (s.proc q).pos = .read p n → ∃ P, s.pipe p = some P ∧ P.readopen = true
  write : ∀ q n i, (s.proc q).pos = .write p n i → ∃ P, s.pipe p = some P ∧ P.writeopen = true
  close : ∀ q w k, (s.proc q).pos = .pipeclose p w k →
    ∃ P, s.pipe p = some P ∧ P.isOpen w = true

/-- **The life of a pipe.** Each end of a pipe has at most one file, or one process about to close
it, and is open exactly as long; the page is freed with the second of them. Whoever is in `piperead`
or `pipewrite` finds its end open. -/
theorem pipe_lifetime (h : Reach s) (p : ℕ) : Held p s := by
  have hends := h.good.ends
  refine ⟨hends.count p, ⟨fun hp w ↦ ?_, fun hnone ↦ ?_⟩, fun q n ↦ hends.exists_of_read,
    fun q n i ↦ hends.exists_of_write, fun q w k ↦ hends.exists_of_shuts⟩
  · rw [hends.count, opens, hp, Option.elim_none]
  · cases hp : s.pipe p with
    | none => rfl
    | some P =>
      have hzero : ∀ w, P.isOpen w ≠ true := by
        intro w hopen
        have hcount := hends.count p w
        rw [hnone, opens, hp, Option.elim_some, if_pos hopen] at hcount
        exact absurd hcount zero_ne_one
      exact absurd (hends.alive p P hp) (not_or.mpr ⟨hzero false, hzero true⟩)

theorem ends_piped : ends 4096 true (piped []) = 1 := by
  have hheld := pipe_lifetime (reach_piped [] (by decide +kernel)) 4096
  have hopens : opens 4096 true (piped []) = 1 := by decide +kernel
  rw [hheld.count, hopens]

/-! ## Panics -/

namespace RefCount

theorem filedup_ok (h : RefCount s) {fd : Fd} {f : FileNo} (hf : (s.proc q).ofile fd = some f) :
    filedup f s = .ok (s.addRef f 1) := by
  have hone := h.one_le (Proc.refs_pos_of_ofile hf)
  rw [filedup, if_neg (by omega)]
  rfl

theorem sysDup_ok (h : RefCount s) (q : Slot) (fd : ℤ) : ∃ t, sysDup q fd s = .ok t := by
  rw [sysDup]
  split
  · next hf _ =>
    rw [h.filedup_ok (Proc.argfd_eq_some hf)]
    exact ⟨_, rfl⟩
  · exact ⟨_, rfl⟩

theorem forkNext_ok (h : RefCount s) (q np : Slot) (fd : ℕ) : ∃ t, forkNext q np fd s = .ok t := by
  rw [forkNext]
  split
  · split
    · exact ⟨_, rfl⟩
    · next hf =>
      rw [h.filedup_ok hf]
      exact ⟨_, rfl⟩
  · exact ⟨_, rfl⟩

theorem fileclose_ok (h : RefCount s) {f : FileNo} {k : Then} (hq : (s.proc q).pos = .close f k) :
    ∃ t, fileclose q f k s = .ok t := by
  have hone : 1 ≤ (s.file f).ref := by
    refine h.one_le (q := q) ?_
    rw [refs_of_pos hq, Pos.holds, cell_self]
    omega
  simp only [fileclose]
  rw [if_neg (by omega)]
  split
  · exact ⟨_, rfl⟩
  split <;> exact ⟨_, rfl⟩

end RefCount

namespace Ends

theorem sysRead_ok (h : Ends s) (q : Slot) (fd n : ℤ) : ∃ t, sysRead q fd n s = .ok t := by
  rw [sysRead]
  split
  · exact ⟨_, rfl⟩
  · next hf =>
    have htype := (h.fine q).type _ _ (Proc.argfd_eq_some hf)
    split
    · exact ⟨_, rfl⟩
    split
    · exact ⟨_, rfl⟩
    · exact ⟨_, rfl⟩
    · exact absurd ‹_› htype

theorem sysWrite_ok (h : Ends s) (q : Slot) (fd n : ℤ) : ∃ t, sysWrite q fd n s = .ok t := by
  rw [sysWrite]
  split
  · exact ⟨_, rfl⟩
  · next hf =>
    have htype := (h.fine q).type _ _ (Proc.argfd_eq_some hf)
    split
    · exact ⟨_, rfl⟩
    split
    · exact ⟨_, rfl⟩
    · exact ⟨_, rfl⟩
    · exact absurd ‹_› htype

theorem pipeclose_ok (h : Ends s) {k : Then} (hq : (s.proc q).pos = .pipeclose p w k) :
    ∃ t, Files.pipeclose q p w k s = .ok t := by
  obtain ⟨P, hp, -⟩ := h.exists_of_shuts hq
  rw [Files.pipeclose, hp]
  exact ⟨_, rfl⟩

theorem piperead_ok (h : Ends s) {n : ℤ} (hq : (s.proc q).pos = .read p n) :
    ∃ t, piperead q p n s = .ok t := by
  obtain ⟨P, hp, -⟩ := h.exists_of_read hq
  rw [piperead, hp]
  simp only
  split
  · split <;> exact ⟨_, rfl⟩
  · exact ⟨_, rfl⟩

theorem pipewrite_ok (h : Ends s) {n : ℤ} {i : ℕ} (hq : (s.proc q).pos = .write p n i)
    (addr : ℕ → Byte) : ∃ t, pipewrite q p n i addr s = .ok t := by
  obtain ⟨P, hp, -⟩ := h.exists_of_write hq
  rw [pipewrite, hp]
  simp only
  split
  · exact ⟨_, rfl⟩
  split <;> exact ⟨_, rfl⟩

end Ends

theorem Good.move_ok (h : Good s) {r : Except String Kernel} (hmove : move a s = some r) :
    ∃ t, r = .ok t := by
  cases a with
  | sysDup q fd =>
    obtain ⟨-, ⟨⟩⟩ := Option.ite_none_right_eq_some.mp hmove
    exact h.refs.sysDup_ok q fd
  | sysRead q fd n =>
    obtain ⟨-, ⟨⟩⟩ := Option.ite_none_right_eq_some.mp hmove
    exact h.ends.sysRead_ok q fd n
  | sysWrite q fd n =>
    obtain ⟨-, ⟨⟩⟩ := Option.ite_none_right_eq_some.mp hmove
    exact h.ends.sysWrite_ok q fd n
  | fileclose q =>
    simp only [move] at hmove
    split at hmove
    · next f k hq =>
      obtain ⟨⟩ := hmove
      exact h.refs.fileclose_ok hq
    · cases hmove
  | pipeclose q =>
    simp only [move] at hmove
    split at hmove
    · next p w k hq =>
      obtain ⟨⟩ := hmove
      exact h.ends.pipeclose_ok hq
    · cases hmove
  | piperead q =>
    simp only [move] at hmove
    split at hmove
    · next p n hq =>
      obtain ⟨-, ⟨⟩⟩ := Option.ite_none_left_eq_some.mp hmove
      exact h.ends.piperead_ok hq
    · cases hmove
  | pipewrite q addr =>
    simp only [move] at hmove
    split at hmove
    · next p n i hq =>
      obtain ⟨-, ⟨⟩⟩ := Option.ite_none_left_eq_some.mp hmove
      exact h.ends.pipewrite_ok hq addr
    · cases hmove
  | forkNext q =>
    simp only [move] at hmove
    split at hmove
    · next np fd hq =>
      obtain ⟨⟩ := hmove
      exact h.refs.forkNext_ok q np fd
    · cases hmove
  -- the others cannot fail
  | sysOpen | sysClose | sysPipe | fork | exit | wait =>
    obtain ⟨-, ⟨⟩⟩ := Option.ite_none_right_eq_some.mp hmove
    exact ⟨_, rfl⟩
  | pipealloc | exitNext =>
    simp only [move] at hmove
    split at hmove
    · obtain ⟨⟩ := hmove
      exact ⟨_, rfl⟩
    · cases hmove
  | kalloc q r =>
    simp only [move] at hmove
    split at hmove
    · obtain ⟨-, ⟨⟩⟩ := Option.ite_none_right_eq_some.mp hmove
      exact ⟨_, rfl⟩
    · cases hmove
  | kill =>
    obtain ⟨⟩ := hmove
    exact ⟨_, rfl⟩

/-- **No panic.** No move from a state that is reached panics, in `filedup`, `fileclose`, `fileread`
or `filewrite`, or reaches for a pipe whose page has been freed. -/
theorem no_panic (h : Reach s) (a : Act) (e : String) : move a s ≠ some (.error e) := by
  intro hmove
  obtain ⟨t, ht⟩ := h.good.move_ok hmove
  cases ht

theorem no_panic_piped : move (.sysRead second 0 2) (piped []) ≠ some (.error "fileread") :=
  no_panic (reach_piped [] (by decide +kernel)) _ _

end CS537.Files
