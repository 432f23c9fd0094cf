import CS537.Files.System
import CS537.Lib.Tally

/-!
# Reference counts

The reference count of a file is the number of descriptors that lead to it, in all processes, and of
the references that processes hold in the middle of a call. `fork` copies the descriptors one by
one while other processes go on, so that the child has to be followed too: nobody else makes it,
and the descriptors not yet copied are closed.
-/

namespace CS537.Files

open Function Transition Finset Tally Holding

variable {s t : Kernel} {a : Act} {q : Slot}

/-! ## Who may have descriptors -/

/-- `exit` has closed the descriptors below this one. -/
def Then.past : Then → ℕ
  | .exit fd => fd
  | _ => 0

def Pos.past : Pos → ℕ
  | .exit fd => fd
  | .close _ k | .pipeclose _ _ k => k.past
  | _ => 0

structure Proc.Ok (P : Proc) : Prop where
  idle : P.state ≠ .active → P.pos = .user
  past : ∀ fd : Fd, (fd : ℕ) < P.pos.past → P.ofile fd = none
  closed : P.state = .unused ∨ P.state = .zombie → ∀ fd, P.ofile fd = none

/-- The processes, and the child that each `fork` is making. -/
structure Shape (s : Kernel) : Prop where
  ok : ∀ q, (s.proc q).Ok
  child : ∀ q np fd, (s.proc q).pos = .fork np fd → (s.proc np).state = .embryo
  rest : ∀ q np fd, (s.proc q).pos = .fork np fd →
    ∀ fd' : Fd, fd ≤ fd' → (s.proc np).ofile fd' = none
  parent : ∀ q q' np fd fd', (s.proc q).pos = .fork np fd → (s.proc q').pos = .fork np fd' → q = q'

/-- What the two invariants see of a process. -/
def Proc.core (P : Proc) : ProcState × (Fd → Option FileNo) × Pos := (P.state, P.ofile, P.pos)

/-- Only the process `q` may have moved on. -/
def Only (q : Slot) (s t : Kernel) : Prop := ∀ q', q' ≠ q → (t.proc q').core = (s.proc q').core

theorem Proc.core_eq_iff {P P' : Proc} :
    P'.core = P.core ↔ P'.state = P.state ∧ P'.ofile = P.ofile ∧ P'.pos = P.pos := by
  simp [core]

theorem only_setProc {s' : Kernel} (h : ∀ q', (s'.proc q').core = (s.proc q').core) (q : Slot)
    (P : Proc) : Only q s (s'.setProc q P) :=
  fun q' hne ↦ by rw [Kernel.setProc_proc, update_of_ne hne, h]

theorem Only.state (h : Only q s t) {q' : Slot} (hne : q' ≠ q) :
    (t.proc q').state = (s.proc q').state := (Proc.core_eq_iff.mp (h q' hne)).1

theorem Only.ofile (h : Only q s t) {q' : Slot} (hne : q' ≠ q) :
    (t.proc q').ofile = (s.proc q').ofile := (Proc.core_eq_iff.mp (h q' hne)).2.1

theorem Only.pos (h : Only q s t) {q' : Slot} (hne : q' ≠ q) :
    (t.proc q').pos = (s.proc q').pos := (Proc.core_eq_iff.mp (h q' hne)).2.2

namespace Shape

theorem active (h : Shape s) {x : Pos} (hq : (s.proc q).pos = x) (hx : x ≠ .user) :
    (s.proc q).state = .active := by
  by_contra hstate
  exact hx (hq.symm.trans ((h.ok q).idle hstate))

theorem parent_ne (h : Shape s) {np : Slot} {fd : ℕ} (hq : (s.proc q).pos = .fork np fd) :
    q ≠ np := by
  rintro rfl
  have hembryo := h.child q q fd hq
  rw [h.active hq nofun] at hembryo
  cases hembryo

/-- A process that is no child goes on, and does not start a `fork`. -/
theorem only (h : Shape s) (ht : Only q s t) (hchild : (s.proc q).state ≠ .embryo)
    (hok : (t.proc q).Ok)
    (hfork : ∀ np fd, (t.proc q).pos = .fork np fd → ∃ fd' ≤ fd, (s.proc q).pos = .fork np fd') :
    Shape t := by
  have hpos : ∀ q' np fd, (t.proc q').pos = .fork np fd →
      ∃ fd' ≤ fd, (s.proc q').pos = .fork np fd' := by
    intro q' np fd hq'
    rcases eq_or_ne q' q with rfl | hne
    · exact hfork np fd hq'
    · exact ⟨fd, le_rfl, by rwa [← ht.pos hne]⟩
  have hnp : ∀ q' np fd, (s.proc q').pos = .fork np fd → np ≠ q := by
    rintro q' np fd hq' rfl
    exact hchild (h.child q' np fd hq')
  refine ⟨fun q' ↦ ?_, fun q' np fd hq' ↦ ?_, fun q' np fd hq' fd' hle ↦ ?_,
    fun q₁ q₂ np fd₁ fd₂ h₁ h₂ ↦ ?_⟩
  · rcases eq_or_ne q' q with rfl | hne
    · exact hok
    · have hold := h.ok q'
      exact ⟨by rw [ht.state hne, ht.pos hne]; exact hold.idle,
        by rw [ht.ofile hne, ht.pos hne]; exact hold.past,
        by rw [ht.state hne, ht.ofile hne]; exact hold.closed⟩
  · obtain ⟨fd₀, -, hs⟩ := hpos q' np fd hq'
    rw [ht.state (hnp _ _ _ hs)]
    exact h.child q' np fd₀ hs
  · obtain ⟨fd₀, hfd₀, hs⟩ := hpos q' np fd hq'
    rw [ht.ofile (hnp _ _ _ hs)]
    exact h.rest q' np fd₀ hs fd' (hfd₀.trans hle)
  · obtain ⟨_, -, hs₁⟩ := hpos q₁ np fd₁ h₁
    obtain ⟨_, -, hs₂⟩ := hpos q₂ np fd₂ h₂
    exact h.parent q₁ q₂ np _ _ hs₁ hs₂

/-- A process in a call goes on in it. -/
theorem goOn (h : Shape s) (hq : (s.proc q).state = .active) {s' : Kernel} {P : Proc}
    (hs' : ∀ q', (s'.proc q').core = (s.proc q').core) (hP : P.state = .active)
    (hpast : ∀ fd : Fd, (fd : ℕ) < P.pos.past → P.ofile fd = none)
    (hfork : ∀ np fd, P.pos = .fork np fd → ∃ fd' ≤ fd, (s.proc q).pos = .fork np fd') :
    Shape (s'.setProc q P) := by
  have hself : (s'.setProc q P).proc q = P := by rw [Kernel.setProc_proc, update_self]
  refine h.only (only_setProc hs' q P) (by rw [hq]; nofun) ?_ (by rwa [hself])
  rw [hself]
  refine ⟨fun hne ↦ absurd hP hne, hpast, fun hor ↦ ?_⟩
  rw [hP] at hor
  simp at hor

/-- A process in a call goes on to a place outside of the loops of `fork` and `exit`. -/
theorem goTo (h : Shape s) (hq : (s.proc q).state = .active) {s' : Kernel} {P : Proc}
    (hs' : ∀ q', (s'.proc q').core = (s.proc q').core) (hP : P.state = .active)
    (hpast : P.pos.past = 0) (hfork : ∀ np fd, P.pos ≠ .fork np fd) : Shape (s'.setProc q P) :=
  h.goOn hq hs' hP (fun fd hfd ↦ absurd (hpast ▸ hfd) (by omega))
    fun np fd hpos ↦ absurd hpos (hfork np fd)

end Shape

theorem Proc.resume_past (P : Proc) (k : Then) : (P.resume k).pos.past = k.past := by
  cases k <;> rfl

theorem Proc.resume_ne_fork (P : Proc) (k : Then) (np : Slot) (fd : ℕ) :
    (P.resume k).pos ≠ .fork np fd := by
  cases k <;> nofun

namespace Shape

/-- A call goes on after `fileclose`. -/
theorem resume (h : Shape s) {x : Pos} {k : Then} (hq : (s.proc q).pos = x) (hx : x ≠ .user)
    (hk : x.past = k.past) {s' : Kernel} (hs' : ∀ q', (s'.proc q').core = (s.proc q').core) :
    Shape (s'.setProc q ((s.proc q).resume k)) := by
  have hact := h.active hq hx
  refine h.goOn hact hs' (by rwa [Proc.resume_state]) (fun fd hfd ↦ ?_)
    fun np fd hpos ↦ absurd hpos (Proc.resume_ne_fork _ _ _ _)
  rw [Proc.resume_ofile]
  rw [Proc.resume_past, ← hk, ← hq] at hfd
  exact (h.ok q).past fd hfd

/-- A process stays where it is, and is no child that is looked after. -/
theorem stay (h : Shape s) {P : Proc} (hok : P.Ok) (hpos : P.pos = (s.proc q).pos)
    (hchild : ∀ q' fd, (s.proc q').pos = .fork q fd →
      P.state = .embryo ∧ ∀ fd' : Fd, fd ≤ fd' → P.ofile fd' = none) : Shape (s.setProc q P) := by
  have hpos' : ∀ q', ((s.setProc q P).proc q').pos = (s.proc q').pos := by
    intro q'
    rw [Kernel.setProc_proc]
    rcases eq_or_ne q' q with rfl | hne
    · rw [update_self, hpos]
    · rw [update_of_ne hne]
  refine ⟨fun q' ↦ ?_, fun q' np fd hq' ↦ ?_, fun q' np fd hq' fd' hle ↦ ?_,
    fun q₁ q₂ np fd₁ fd₂ h₁ h₂ ↦ ?_⟩
  · rw [Kernel.setProc_proc]
    rcases eq_or_ne q' q with rfl | hne
    · rwa [update_self]
    · rw [update_of_ne hne]
      exact h.ok q'
  · rw [hpos'] at hq'
    rw [Kernel.setProc_proc]
    rcases eq_or_ne np q with rfl | hne
    · rw [update_self]
      exact (hchild q' fd hq').1
    · rw [update_of_ne hne]
      exact h.child q' np fd hq'
  · rw [hpos'] at hq'
    rw [Kernel.setProc_proc]
    rcases eq_or_ne np q with rfl | hne
    · rw [update_self]
      exact (hchild q' fd hq').2 fd' hle
    · rw [update_of_ne hne]
      exact h.rest q' np fd hq' fd' hle
  · rw [hpos'] at h₁ h₂
    exact h.parent q₁ q₂ np fd₁ fd₂ h₁ h₂

/-- A process takes on a child that nobody looks after. -/
theorem adopt (h : Shape s) {np : Slot} (hq : (s.proc q).state = .active)
    (hnp : (s.proc np).state = .embryo) (hclosed : ∀ fd, (s.proc np).ofile fd = none)
    (hnone : ∀ q' fd, (s.proc q').pos ≠ .fork np fd) :
    Shape (s.setProc q ((s.proc q).goto (.fork np 0))) := by
  have hnpq : ∀ np', (s.proc np').state = .embryo → np' ≠ q := by
    rintro np' hembryo rfl
    rw [hq] at hembryo
    cases hembryo
  -- only the new parent has a new child
  have hcases : ∀ q' np' fd, ((s.setProc q ((s.proc q).goto (.fork np 0))).proc q').pos =
      .fork np' fd → q' = q ∧ np' = np ∨ q' ≠ q ∧ (s.proc q').pos = .fork np' fd := by
    intro q' np' fd hpos
    rw [Kernel.setProc_proc] at hpos
    rcases eq_or_ne q' q with rfl | hne
    · rw [update_self] at hpos
      exact .inl ⟨rfl, (Pos.fork.inj hpos).1.symm⟩
    · rw [update_of_ne hne] at hpos
      exact .inr ⟨hne, hpos⟩
  refine ⟨fun q' ↦ ?_, fun q' np' fd hq' ↦ ?_, fun q' np' fd hq' fd' hle ↦ ?_,
    fun q₁ q₂ np' fd₁ fd₂ h₁ h₂ ↦ ?_⟩
  · rw [Kernel.setProc_proc]
    rcases eq_or_ne q' q with rfl | hne
    · rw [update_self]
      refine ⟨fun hne ↦ absurd hq hne, fun _ hlt ↦ absurd hlt (Nat.not_lt_zero _), fun hor ↦ ?_⟩
      rw [Proc.goto_state, hq] at hor
      simp at hor
    · rw [update_of_ne hne]
      exact h.ok q'
  · obtain ⟨-, rfl⟩ | ⟨-, hs⟩ := hcases q' np' fd hq'
    · rw [Kernel.setProc_proc, update_of_ne (hnpq _ hnp)]
      exact hnp
    · have hembryo := h.child q' np' fd hs
      rw [Kernel.setProc_proc, update_of_ne (hnpq _ hembryo)]
      exact hembryo
  · obtain ⟨-, rfl⟩ | ⟨-, hs⟩ := hcases q' np' fd hq'
    · rw [Kernel.setProc_proc, update_of_ne (hnpq _ hnp)]
      exact hclosed fd'
    · rw [Kernel.setProc_proc, update_of_ne (hnpq _ (h.child q' np' fd hs))]
      exact h.rest q' np' fd hs fd' hle
  · obtain ⟨rfl, rfl⟩ | ⟨-, hs₁⟩ := hcases q₁ np' fd₁ h₁
    · obtain ⟨rfl, -⟩ | ⟨-, hs₂⟩ := hcases q₂ np' fd₂ h₂
      · rfl
      · exact absurd hs₂ (hnone q₂ fd₂)
    · obtain ⟨-, rfl⟩ | ⟨-, hs₂⟩ := hcases q₂ np' fd₂ h₂
      · exact absurd hs₁ (hnone q₁ fd₁)
      · exact h.parent q₁ q₂ np' fd₁ fd₂ hs₁ hs₂

theorem fork (h : Shape s) {np : Slot} (hq : (s.proc q).state = .active)
    (hnp : (s.proc np).state = .unused) :
    Shape ((s.setProc np { s.proc np with state := .embryo }).setProc q
      ((s.proc q).goto (.fork np 0))) := by
  have hne : q ≠ np := by
    rintro rfl
    rw [hq] at hnp
    cases hnp
  have hnone : ∀ q' fd, (s.proc q').pos ≠ .fork np fd := by
    intro q' fd hpos
    have := h.child q' np fd hpos
    rw [hnp] at this
    cases this
  have hidle := (h.ok np).idle (by rw [hnp]; nofun)
  have hs : Shape (s.setProc np { s.proc np with state := .embryo }) := by
    refine h.stay ⟨fun _ ↦ hidle, (h.ok np).past, fun hor ↦ by simp at hor⟩ rfl
      fun q' fd hpos ↦ absurd hpos (hnone q' fd)
  have hself : (s.setProc np { s.proc np with state := .embryo }).proc q = s.proc q := by
    rw [Kernel.setProc_proc, update_of_ne hne]
  rw [← hself]
  refine hs.adopt (by rwa [hself]) (by rw [Kernel.setProc_proc, update_self]) ?_ ?_
  · rw [Kernel.setProc_proc, update_self]
    exact (h.ok np).closed (.inl hnp)
  · intro q' fd
    rw [Kernel.setProc_proc]
    rcases eq_or_ne q' np with rfl | hne'
    · rw [update_self]
      exact fun hpos ↦ hnone _ fd hpos
    · rw [update_of_ne hne']
      exact hnone q' fd

theorem trans (h : Shape s) (ht : Trans s a t) : Shape t := by
  cases ht with
  | fail ha hq => exact h.goTo hq.1.1 (fun _ ↦ rfl) hq.1.1 rfl nofun
  | sysDup hq hf hfree href => exact h.goTo hq.1.1 (fun _ ↦ rfl) hq.1.1 rfl nofun
  | openFull hq hf => exact h.goTo hq.1.1 (fun _ ↦ rfl) hq.1.1 rfl nofun
  | sysOpen hq hf hfree => exact h.goTo hq.1.1 (fun _ ↦ rfl) hq.1.1 rfl nofun
  | sysClose hq hf => exact h.goTo hq.1.1 (fun _ ↦ rfl) hq.1.1 rfl nofun
  | sysPipe hq hf => exact h.goTo hq.1.1 (fun _ ↦ rfl) hq.1.1 rfl nofun
  | pipeallocFail hq =>
    have hact := h.active hq nofun
    exact h.goTo hact (fun _ ↦ rfl) hact rfl nofun
  | pipealloc hq hf =>
    have hact := h.active hq nofun
    exact h.goTo hact (fun _ ↦ rfl) hact rfl nofun
  | kallocFail hq =>
    have hact := h.active hq nofun
    exact h.goTo hact (fun _ ↦ rfl) hact rfl nofun
  | pipeFull hq hp =>
    have hact := h.active hq nofun
    exact h.goTo hact (fun _ ↦ rfl) hact rfl nofun
  | pipe hq hp hfree₀ hfree₁ hne =>
    have hact := h.active hq nofun
    exact h.goTo hact (fun _ ↦ rfl) hact rfl nofun
  | sysRead hq hf hread htype => exact h.goTo hq.1.1 (fun _ ↦ rfl) hq.1.1 rfl nofun
  | sysWrite hq hf hwrite htype => exact h.goTo hq.1.1 (fun _ ↦ rfl) hq.1.1 rfl nofun
  | inode ha => exact h
  | fork hq hnp => exact h.fork hq.1.1 hnp
  | exit hq hinit =>
    exact h.goOn hq.1 (fun _ ↦ rfl) hq.1 (fun fd hfd ↦ absurd hfd (Nat.not_lt_zero _)) nofun
  | @wait q hq =>
    have hok := h.ok q
    refine h.stay ⟨fun _ ↦ hok.idle (by rw [hq]; nofun), hok.past,
      fun _ ↦ hok.closed (.inr hq)⟩ rfl fun q' fd hpos ↦ ?_
    have hembryo := h.child q' q fd hpos
    rw [hq] at hembryo
    cases hembryo
  | @kill q =>
    exact h.stay ⟨(h.ok q).idle, (h.ok q).past, (h.ok q).closed⟩ rfl
      fun q' fd hpos ↦ ⟨h.child q' q fd hpos, h.rest q' q fd hpos⟩
  | drop hq href => exact h.resume hq nofun rfl fun _ ↦ rfl
  | dropLast hq href htype => exact h.resume hq nofun rfl fun _ ↦ rfl
  | dropEnd hq href htype =>
    have hact := h.active hq nofun
    refine h.goOn hact (fun _ ↦ rfl) hact (fun fd hfd ↦ ?_) nofun
    refine (h.ok _).past fd ?_
    rwa [hq]
  | pipeclose hq hp => exact h.resume hq nofun rfl fun _ ↦ rfl
  | readKilled hq hawake hp hempty hkill =>
    have hact := h.active hq nofun
    exact h.goTo hact (fun _ ↦ rfl) hact rfl nofun
  | readSleep hq hawake hp hempty hkill =>
    have hact := h.active hq nofun
    exact h.goTo hact (fun _ ↦ rfl) hact (by simp [hq, Pos.past]) (by simp [hq])
  | piperead hq hawake hp hmore hget =>
    have hact := h.active hq nofun
    exact h.goTo hact (fun _ ↦ rfl) hact rfl nofun
  | pipewrite hq hawake hp hput hdone =>
    have hact := h.active hq nofun
    exact h.goTo hact (fun _ ↦ rfl) hact rfl nofun
  | writeBroken hq hawake hp hput hfull hbroken =>
    have hact := h.active hq nofun
    exact h.goTo hact (fun _ ↦ rfl) hact rfl nofun
  | writeSleep hq hawake hp hput hfull hreadopen hkill =>
    have hact := h.active hq nofun
    exact h.goTo hact (fun _ ↦ rfl) hact rfl nofun
  | @forkSkip q np fd hq hfd hf =>
    have hact := h.active hq nofun
    refine h.goOn hact (fun _ ↦ rfl) hact (fun fd hfd ↦ absurd hfd (Nat.not_lt_zero _)) ?_
    rintro np' fd' hpos
    obtain ⟨rfl, rfl⟩ := Pos.fork.inj hpos
    exact ⟨fd, by omega, hq⟩
  | @forkDup q np fd f hq hfd hf href =>
    have hact := h.active hq nofun
    have hembryo := h.child q np fd hq
    have hne := h.parent_ne hq
    have hs : Shape ((s.addRef f 1).setProc q ((s.proc q).goto (.fork np (fd + 1)))) := by
      refine h.goOn hact (fun _ ↦ rfl) hact (fun fd hlt ↦ absurd hlt (Nat.not_lt_zero _)) ?_
      rintro np' fd' hpos
      obtain ⟨rfl, rfl⟩ := Pos.fork.inj hpos
      exact ⟨fd, by omega, hq⟩
    rw [Kernel.setProc_comm _ hne.symm]
    have hself : ((s.addRef f 1).setProc q ((s.proc q).goto (.fork np (fd + 1)))).proc np =
        s.proc np := by rw [Kernel.setProc_proc, update_of_ne hne.symm]; rfl
    rw [← hself]
    refine hs.stay ⟨(hs.ok np).idle, fun fd' hlt ↦ ?_, fun hor ↦ ?_⟩ rfl fun q' fd₁ hpos ↦ ?_
    · rw [hself, Proc.setFd_pos, (h.ok np).idle (by rw [hembryo]; nofun)] at hlt
      exact absurd hlt (Nat.not_lt_zero _)
    · rw [hself, Proc.setFd_state, hembryo] at hor
      simp at hor
    · obtain rfl := hs.parent q' q np fd₁ (fd + 1) hpos
        (by rw [Kernel.setProc_proc, update_self, Proc.goto_pos])
      rw [Kernel.setProc_proc, update_self, Proc.goto_pos] at hpos
      obtain ⟨-, rfl⟩ := Pos.fork.inj hpos
      rw [hself]
      refine ⟨hembryo, fun fd' hle ↦ ?_⟩
      have hlt : fd < (fd' : ℕ) := hle
      have hne' : fd' ≠ ⟨fd, hfd⟩ := fun heq ↦ absurd hlt (by simp [heq])
      rw [Proc.setFd_ofile, update_of_ne hne']
      exact h.rest _ np fd hq fd' (by omega)
  | @forkEnd q np fd hq hfd =>
    have hact := h.active hq nofun
    have hembryo := h.child q np fd hq
    have hne := h.parent_ne hq
    have hs : Shape (s.setProc q ((s.proc q).goto .user)) :=
      h.goTo hact (fun _ ↦ rfl) hact rfl nofun
    rw [Kernel.setProc_comm _ hne.symm]
    have hself : (s.setProc q ((s.proc q).goto .user)).proc np = s.proc np := by
      rw [Kernel.setProc_proc, update_of_ne hne.symm]
    rw [← hself]
    refine hs.stay ⟨fun hact' ↦ absurd rfl hact', (hs.ok np).past, fun hor ↦ by simp at hor⟩ rfl
      fun q' fd₁ hpos ↦ ?_
    -- the parent was the only one, and it is done
    rw [Kernel.setProc_proc] at hpos
    rcases eq_or_ne q' q with rfl | hne'
    · rw [update_self] at hpos
      cases hpos
    · rw [update_of_ne hne'] at hpos
      exact absurd (h.parent q' q np fd₁ fd hpos hq) hne'
  | @exitSkip q fd hq hfd hf =>
    have hact := h.active hq nofun
    refine h.goOn hact (fun _ ↦ rfl) hact (fun fd' hlt ↦ ?_) nofun
    rcases Nat.lt_succ_iff_lt_or_eq.mp hlt with hlt | heq
    · exact (h.ok q).past fd' (by rwa [hq])
    · rwa [show fd' = ⟨fd, hfd⟩ from Fin.ext heq]
  | @exitClose q fd f hq hfd hf =>
    have hact := h.active hq nofun
    refine h.goOn hact (fun _ ↦ rfl) hact (fun fd' hlt ↦ ?_) nofun
    rw [Proc.goto_ofile, Proc.setFd_ofile]
    rcases eq_or_ne fd' ⟨fd, hfd⟩ with rfl | hne
    · rw [update_self]
    · rw [update_of_ne hne]
      refine (h.ok q).past fd' ?_
      have hval : (fd' : ℕ) ≠ fd := fun heq ↦ hne (Fin.ext heq)
      have hlt' : (fd' : ℕ) < fd + 1 := hlt
      rw [hq]
      exact show (fd' : ℕ) < fd by omega
  | @exitEnd q fd hq hfd =>
    have hact := h.active hq nofun
    refine h.only (only_setProc (fun _ ↦ rfl) q _) (by rw [hact]; nofun) ?_ ?_
    · rw [Kernel.setProc_proc, update_self]
      refine ⟨fun _ ↦ rfl, fun fd' hlt ↦ absurd hlt (Nat.not_lt_zero _), fun _ fd' ↦ ?_⟩
      refine (h.ok q).past fd' ?_
      rw [hq]
      exact fd'.2.trans_le hfd
    · rw [Kernel.setProc_proc, update_self]
      nofun

end Shape

/-! ## References -/

/-- The references to `f` that are to be dropped. -/
def Then.holds (f : FileNo) : Then → ℕ
  | .close f' => cell (some f') f
  | _ => 0

/-- The references to `f` that a process holds in the middle of a call. -/
def Pos.holds (f : FileNo) : Pos → ℕ
  | .close f' k => cell (some f') f + k.holds f
  | .pipeclose _ _ k => k.holds f
  | .pipe1 f₀ => cell (some f₀) f
  | .pipe2 f₀ f₁ => cell (some f₀) f + cell (some f₁) f
  | _ => 0

@[simp] theorem Pos.holds_user (f : FileNo) : Pos.user.holds f = 0 := rfl

/-- The references to `f` in a process. -/
def Proc.refs (f : FileNo) (P : Proc) : ℕ := held univ P.ofile f + P.pos.holds f

/-- The references to `f` in all processes. -/
def refs (f : FileNo) (s : Kernel) : ℕ := tally (Proc.refs f) s.proc

/-- Every file counts its references. -/
def RefCount (s : Kernel) : Prop := ∀ f, (s.file f).ref = refs f s

theorem Proc.resume_holds (P : Proc) (k : Then) (f : FileNo) :
    (P.resume k).pos.holds f = k.holds f := by
  cases k <;> rfl

theorem held_setFd (P : Proc) (fd : Fd) (x : Option FileNo) (f : FileNo) :
    held univ (P.setFd fd x).ofile f + cell (P.ofile fd) f = held univ P.ofile f + cell x f :=
  held_update (mem_univ fd) P.ofile x f

/-- The references after a move of `q`. -/
theorem refs_setProc {s' : Kernel} (hs' : ∀ q', (s'.proc q').core = (s.proc q').core) (P : Proc)
    (f : FileNo) : refs f (s'.setProc q P) + (s.proc q).refs f = refs f s + P.refs f := by
  have hrefs : ∀ q', (s'.proc q').refs f = (s.proc q').refs f := by
    intro q'
    obtain ⟨-, hofile, hpos⟩ := Proc.core_eq_iff.mp (hs' q')
    rw [Proc.refs, Proc.refs, hofile, hpos]
  have htally : refs f s' = refs f s := tally_congr hrefs
  rw [← htally, ← hrefs q]
  exact tally_update (Proc.refs f) s'.proc q P

/-- A move of `q` that adds to each count what it adds to the references of `q`. -/
theorem RefCount.move (h : RefCount s) (s' : Kernel)
    (hs' : ∀ q', (s'.proc q').core = (s.proc q').core) {P : Proc}
    (hP : ∀ f, (s'.file f).ref + (s.proc q).refs f = (s.file f).ref + P.refs f) :
    RefCount (s'.setProc q P) := by
  intro f
  have hrefs := refs_setProc (q := q) hs' P f
  have hf := hP f
  rw [h f] at hf
  rw [Kernel.setProc_file]
  omega

theorem RefCount.one_le (h : RefCount s) {f : FileNo} (hq : 0 < (s.proc q).refs f) :
    1 ≤ (s.file f).ref := by
  have hle : (s.proc q).refs f ≤ refs f s := le_tally (Proc.refs f) s.proc q
  rw [h f]
  omega

theorem refs_of_pos {P : Proc} {x : Pos} (h : P.pos = x) (f : FileNo) :
    P.refs f = held univ P.ofile f + x.holds f := by rw [Proc.refs, h]

/-- A move that leaves the references where they are. -/
theorem RefCount.keep (h : RefCount s) {s' : Kernel} (hfile : s'.file = s.file)
    (hs' : ∀ q', (s'.proc q').core = (s.proc q').core) {P : Proc}
    (hP : ∀ f, P.refs f = (s.proc q).refs f) : RefCount (s'.setProc q P) :=
  h.move s' hs' fun f ↦ by rw [hfile, hP]

/-- A call goes on without touching a descriptor. -/
theorem RefCount.goOn (h : RefCount s) (s' : Kernel) (hfile : ∀ f, (s'.file f).ref = (s.file f).ref)
    (hs' : ∀ q', (s'.proc q').core = (s.proc q').core) {x : Pos} (hq : (s.proc q).pos = x) {P : Proc}
    (hofile : P.ofile = (s.proc q).ofile) (hholds : ∀ f, P.pos.holds f = x.holds f) :
    RefCount (s'.setProc q P) :=
  h.move s' hs' fun f ↦ by rw [hfile, refs_of_pos hq, Proc.refs, hofile, hholds]

/-- A move that gives the process a reference to `f`. -/
theorem RefCount.gain (h : RefCount s) (s' : Kernel)
    (hs' : ∀ q', (s'.proc q').core = (s.proc q').core) {f : FileNo} {x : File}
    (hfile : s'.file = update s.file f x) (href : x.ref = (s.file f).ref + 1) {P : Proc}
    (hP : ∀ f', P.refs f' = (s.proc q).refs f' + cell (some f) f') : RefCount (s'.setProc q P) := by
  refine h.move s' hs' fun f' ↦ ?_
  rw [hfile, hP, cell_some]
  rcases eq_or_ne f f' with rfl | hne
  · rw [update_self, href, if_pos rfl]
    push_cast
    omega
  · rw [update_of_ne hne.symm, if_neg hne, add_zero]

/-- A move that takes a reference to `f` from the process. -/
theorem RefCount.lose (h : RefCount s) (s' : Kernel)
    (hs' : ∀ q', (s'.proc q').core = (s.proc q').core) {f : FileNo} {x : File}
    (hfile : s'.file = update s.file f x) (href : x.ref = (s.file f).ref - 1) {P : Proc}
    (hP : ∀ f', P.refs f' + cell (some f) f' = (s.proc q).refs f') : RefCount (s'.setProc q P) := by
  refine h.move s' hs' fun f' ↦ ?_
  rw [hfile, ← hP, cell_some]
  rcases eq_or_ne f f' with rfl | hne
  · rw [update_self, href, if_pos rfl]
    push_cast
    omega
  · rw [update_of_ne hne.symm, if_neg hne, add_zero]

/-- A closed descriptor is set. -/
theorem refs_setFd {P P' : Proc} {fd : Fd} {f : FileNo} (hfree : P.ofile fd = none)
    (hofile : P'.ofile = (P.setFd fd (some f)).ofile) (hpos : ∀ f', P'.pos.holds f' = P.pos.holds f')
    (f' : FileNo) : P'.refs f' = P.refs f' + cell (some f) f' := by
  have hheld := held_setFd P fd (some f) f'
  rw [hfree, cell_none, add_zero] at hheld
  rw [Proc.refs, Proc.refs, hofile, hpos, hheld, add_right_comm]

/-- A descriptor is closed, and its reference is kept for `fileclose`. -/
theorem refs_close {P : Proc} {fd : Fd} {f : FileNo} (hf : P.ofile fd = some f)
    (hpos : ∀ f', P.pos.holds f' = 0) {k : Then} (hk : ∀ f', k.holds f' = 0) (f' : FileNo) :
    ((P.setFd fd none).goto (.close f k)).refs f' = P.refs f' := by
  have hheld := held_setFd P fd none f'
  rw [hf, cell_none, add_zero] at hheld
  rw [Proc.refs, Proc.refs, Proc.goto_ofile, Proc.goto_pos, Pos.holds, hk, hpos, ← hheld, add_zero,
    add_zero]

theorem setEnds_ref (s : Kernel) {f₀ f₁ : FileNo} {p : ℕ} (f : FileNo) :
    ((s.setEnds f₀ f₁ p).file f).ref = (s.file f).ref := by
  rw [Kernel.setEnds_file]
  rcases eq_or_ne f f₁ with rfl | hne₁
  · rw [update_self, File.toEnd]
  rcases eq_or_ne f f₀ with rfl | hne₀
  · rw [update_of_ne hne₁, update_self, File.toEnd]
  · rw [update_of_ne hne₁, update_of_ne hne₀]

/-- Both descriptors of a new pipe are set. -/
theorem RefCount.pipe (h : RefCount s) {f₀ f₁ : FileNo} {p : ℕ} {fd₀ fd₁ : Fd}
    (hq : (s.proc q).pos = .pipe2 f₀ f₁) (hfree₀ : (s.proc q).ofile fd₀ = none)
    (hfree₁ : (s.proc q).ofile fd₁ = none) (hne : fd₁ ≠ fd₀) :
    RefCount ((s.setEnds f₀ f₁ p).setProc q
      ((((s.proc q).setFd fd₀ (some f₀)).setFd fd₁ (some f₁)).reply 0)) := by
  refine h.move (s.setEnds f₀ f₁ p) (fun _ ↦ rfl) fun f ↦ ?_
  have hfree : ((s.proc q).setFd fd₀ (some f₀)).ofile fd₁ = none := by
    rw [Proc.setFd_ofile, update_of_ne hne, hfree₁]
  have hheld₀ := held_setFd (s.proc q) fd₀ (some f₀) f
  have hheld₁ := held_setFd ((s.proc q).setFd fd₀ (some f₀)) fd₁ (some f₁) f
  rw [hfree₀, cell_none, add_zero] at hheld₀
  rw [hfree, cell_none, add_zero] at hheld₁
  rw [setEnds_ref, refs_of_pos hq, refs_of_pos (Proc.reply_pos _ _), Proc.reply_ofile, hheld₁,
    hheld₀, Pos.holds_user, Pos.holds, add_zero, add_assoc]

/-- `fork` has set a descriptor of the child. -/
theorem RefCount.copy (h : RefCount s) (hs : Shape s) {np : Slot} {fd : ℕ} {f : FileNo}
    (hq : (s.proc q).pos = .fork np fd) (hfd : fd < nofile) :
    RefCount (((s.addRef f 1).setProc np ((s.proc np).setFd ⟨fd, hfd⟩ (some f))).setProc q
      ((s.proc q).goto (.fork np (fd + 1)))) := by
  have hself : ((s.addRef f 1).setProc np ((s.proc np).setFd ⟨fd, hfd⟩ (some f))).proc q =
      s.proc q := by
    rw [Kernel.setProc_proc, update_of_ne (hs.parent_ne hq)]
    rfl
  have h' : RefCount ((s.addRef f 1).setProc np ((s.proc np).setFd ⟨fd, hfd⟩ (some f))) :=
    h.gain (s.addRef f 1) (fun _ ↦ rfl) rfl rfl
      (refs_setFd (hs.rest q np fd hq ⟨fd, hfd⟩ le_rfl) rfl fun _ ↦ rfl)
  rw [← hself]
  exact h'.goOn (x := .fork np fd) _ (fun _ ↦ rfl) (fun _ ↦ rfl) (by rw [hself, hq]) rfl
    fun _ ↦ rfl

theorem RefCount.trans (h : RefCount s) (hs : Shape s) (ht : Trans s a t) : RefCount t := by
  cases ht with
  | fail ha hq => exact h.goOn s (fun _ ↦ rfl) (fun _ ↦ rfl) hq.1.2 rfl fun _ ↦ rfl
  | @sysDup q fd fd₀ fd' f hq hf hfree href =>
    exact h.gain (s.addRef f 1) (fun _ ↦ rfl) rfl rfl
      (refs_setFd hfree rfl fun f' ↦ by rw [hq.1.2]; rfl)
  | @openFull q omode f hq hf =>
    refine h.gain (s.refer f) (fun _ ↦ rfl) rfl (by rw [hf, zero_add]) fun f' ↦ ?_
    rw [refs_of_pos hq.1.2]
    rfl
  | @sysOpen q omode f fd readable writable hq hf hfree =>
    exact h.gain (s.setFile f _) (fun _ ↦ rfl) rfl (by rw [hf, zero_add])
      (refs_setFd hfree rfl fun f' ↦ by rw [hq.1.2]; rfl)
  | sysClose hq hf =>
    exact h.keep rfl (fun _ ↦ rfl) (refs_close hf (fun f' ↦ by rw [hq.1.2]; rfl) fun _ ↦ rfl)
  | @sysPipe q f₀ hq hf =>
    refine h.gain (s.refer f₀) (fun _ ↦ rfl) rfl (by rw [hf, zero_add]) fun f' ↦ ?_
    rw [refs_of_pos hq.1.2]
    rfl
  | pipeallocFail hq => exact h.goOn s (fun _ ↦ rfl) (fun _ ↦ rfl) hq rfl fun _ ↦ rfl
  | @pipealloc q f₀ f₁ hq hf =>
    refine h.gain (s.refer f₁) (fun _ ↦ rfl) rfl (by rw [hf, zero_add]) fun f' ↦ ?_
    rw [refs_of_pos hq, add_assoc]
    rfl
  | kallocFail hq => exact h.goOn s (fun _ ↦ rfl) (fun _ ↦ rfl) hq rfl fun _ ↦ rfl
  | pipeFull hq hp => exact h.goOn _ (setEnds_ref s) (fun _ ↦ rfl) hq rfl fun _ ↦ rfl
  | pipe hq hp hfree₀ hfree₁ hne => exact h.pipe hq hfree₀ hfree₁ hne
  | sysRead hq hf hread htype =>
    exact h.goOn s (fun _ ↦ rfl) (fun _ ↦ rfl) hq.1.2 rfl fun _ ↦ rfl
  | sysWrite hq hf hwrite htype =>
    exact h.goOn s (fun _ ↦ rfl) (fun _ ↦ rfl) hq.1.2 rfl fun _ ↦ rfl
  | inode ha => exact h
  | @fork q np hq hnp =>
    have hne : q ≠ np := by
      rintro rfl
      rw [hq.1.1] at hnp
      cases hnp
    have hself : (s.setProc np { s.proc np with state := .embryo }).proc q = s.proc q := by
      rw [Kernel.setProc_proc, update_of_ne hne]
    have h' : RefCount (s.setProc np { s.proc np with state := .embryo }) :=
      h.keep rfl (fun _ ↦ rfl) fun f ↦ rfl
    rw [← hself]
    exact h'.goOn (x := .user) _ (fun _ ↦ rfl) (fun _ ↦ rfl) (by rw [hself, hq.1.2]) rfl fun _ ↦ rfl
  | exit hq hinit => exact h.goOn s (fun _ ↦ rfl) (fun _ ↦ rfl) hq.2 rfl fun _ ↦ rfl
  | wait hq => exact h.keep rfl (fun _ ↦ rfl) fun f ↦ rfl
  | kill => exact h.keep rfl (fun _ ↦ rfl) fun f ↦ rfl
  | @drop q f k hq href =>
    refine h.lose (s.addRef f (-1)) (fun _ ↦ rfl) rfl rfl fun f' ↦ ?_
    rw [refs_of_pos hq, Proc.refs, Proc.resume_holds, Proc.resume_ofile, Pos.holds, add_assoc,
      add_comm (cell _ _)]
  | @dropLast q f k hq href htype =>
    refine h.lose (s.forget f) (fun _ ↦ rfl) rfl (by rw [href, sub_self]) fun f' ↦ ?_
    rw [refs_of_pos hq, Proc.refs, Proc.resume_holds, Proc.resume_ofile, Pos.holds, add_assoc,
      add_comm (cell _ _)]
  | @dropEnd q f k hq href htype =>
    refine h.lose (s.forget f) (fun _ ↦ rfl) rfl (by rw [href, sub_self]) fun f' ↦ ?_
    rw [refs_of_pos hq, refs_of_pos (Proc.goto_pos _ _), Proc.goto_ofile, Pos.holds, Pos.holds,
      add_assoc, add_comm (cell _ _)]
  | pipeclose hq hp =>
    exact h.goOn ((s.setPipe _ _).wakeup _) (fun _ ↦ rfl) (fun _ ↦ rfl) hq (Proc.resume_ofile _ _)
      (Proc.resume_holds _ _)
  | readKilled hq hawake hp hempty hkill =>
    exact h.goOn s (fun _ ↦ rfl) (fun _ ↦ rfl) hq rfl fun _ ↦ rfl
  | readSleep hq hawake hp hempty hkill => exact h.keep rfl (fun _ ↦ rfl) fun f ↦ rfl
  | piperead hq hawake hp hmore hget =>
    exact h.goOn ((s.setPipe _ _).wakeup _) (fun _ ↦ rfl) (fun _ ↦ rfl) hq rfl fun _ ↦ rfl
  | pipewrite hq hawake hp hput hdone =>
    exact h.goOn ((s.setPipe _ _).wakeup _) (fun _ ↦ rfl) (fun _ ↦ rfl) hq rfl fun _ ↦ rfl
  | writeBroken hq hawake hp hput hfull hbroken =>
    exact h.goOn (s.setPipe _ _) (fun _ ↦ rfl) (fun _ ↦ rfl) hq rfl fun _ ↦ rfl
  | writeSleep hq hawake hp hput hfull hreadopen hkill =>
    exact h.goOn ((s.setPipe _ _).wakeup _) (fun _ ↦ rfl) (fun _ ↦ rfl) hq rfl fun _ ↦ rfl
  | forkSkip hq hfd hf => exact h.goOn s (fun _ ↦ rfl) (fun _ ↦ rfl) hq rfl fun _ ↦ rfl
  | forkDup hq hfd hf href => exact h.copy hs hq hfd
  | @forkEnd q np fd hq hfd =>
    have hself : (s.setProc np { s.proc np with state := .active }).proc q = s.proc q := by
      rw [Kernel.setProc_proc, update_of_ne (hs.parent_ne hq)]
    have h' : RefCount (s.setProc np { s.proc np with state := .active }) :=
      h.keep rfl (fun _ ↦ rfl) fun f ↦ rfl
    rw [← hself]
    exact h'.goOn (x := .fork np fd) _ (fun _ ↦ rfl) (fun _ ↦ rfl) (by rw [hself, hq]) rfl
      fun _ ↦ rfl
  | exitSkip hq hfd hf => exact h.goOn s (fun _ ↦ rfl) (fun _ ↦ rfl) hq rfl fun _ ↦ rfl
  | exitClose hq hfd hf =>
    exact h.keep rfl (fun _ ↦ rfl) (refs_close hf (fun f' ↦ by rw [hq]; rfl) fun _ ↦ rfl)
  | exitEnd hq hfd => exact h.goOn s (fun _ ↦ rfl) (fun _ ↦ rfl) hq rfl fun _ ↦ rfl

end CS537.Files
