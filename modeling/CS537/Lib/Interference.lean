import CS537.Lib.Transition
import Mathlib.Logic.Relation

/-!
# A program that others interfere with

A sequential program looks at a memory that others may change between any two of its looks. Every
look is recorded in a log. A rely condition says, given the log, what the others may do to the
memory; an assertion is about the log and the memory, and is stable when what the others may do
keeps it. The rules below are those of a Hoare logic in which the precondition of a look is stable;
`Holds.run` says that a program with a proof keeps its invariant in every run in which the others
keep to the rely condition.
-/

namespace Interference

open Transition Relation

variable {M E A α β : Type}

/-- A program is done, has crashed, looks at the memory and records an event, or takes an answer
from code that is not modelled. -/
inductive Prog (M E α : Type) : Type
  | ret (a : α)
  | crash
  | look (e : M → E) (k : M → Prog M E α)
  | ask (k : ℕ → Prog M E α)

namespace Prog

def bind : Prog M E α → (α → Prog M E β) → Prog M E β
  | ret a, f => f a
  | crash, _ => crash
  | look e k, f => look e fun m ↦ (k m).bind f
  | ask k, f => ask fun n ↦ (k n).bind f

instance : Monad (Prog M E) where
  pure := ret
  bind := bind

/-- Recording an event that does not depend on the memory. -/
def note (e : E) : Prog M E Unit := look (fun _ ↦ e) fun _ ↦ ret ()

/-- The result of a program that takes no answers, when nobody interferes; `none` is a crash. -/
def eval (m : M) : Prog M E α → Option α
  | ret a => some a
  | crash => none
  | look _ k => (k m).eval m
  | ask _ => none

@[simp] theorem eval_pure (m : M) (a : α) : (pure a : Prog M E α).eval m = some a := rfl

@[simp] theorem eval_look (m : M) (e : M → E) (k : M → Prog M E α) :
    (look e k).eval m = (k m).eval m := rfl

@[simp] theorem eval_bind (m : M) (p : Prog M E α) (f : α → Prog M E β) :
    (p >>= f).eval m = (p.eval m).bind fun a ↦ (f a).eval m := by
  change (p.bind f).eval m = _
  induction p with
  | ret a => rfl
  | crash => rfl
  | look e k ih => exact ih m
  | ask k => rfl

end Prog

/-! ## Interleavings -/

/-- A program under way, with the memory and the log. -/
structure Config (M E α : Type) where
  prog : Prog M E α
  mem : M
  log : List E

/-- Who moves: the program, or somebody else. -/
inductive Label (A : Type)
  | look
  | ask (n : ℕ)
  | other (a : A)

def step (other : A → M → Option M) (l : Label A) (c : Config M E α) : Option (Config M E α) :=
  match l with
  | .look =>
    match c.prog with
    | .look e k => some ⟨k c.mem, c.mem, c.log ++ [e c.mem]⟩
    | _ => none
  | .ask n =>
    match c.prog with
    | .ask k => some ⟨k n, c.mem, c.log⟩
    | _ => none
  | .other a => (other a c.mem).map fun m ↦ { c with mem := m }

/-! ## The program alone -/

section Alone

variable {o : A → M → Option M} {p p' : Prog M E α} {f : α → Prog M E β} {m m' : M}
  {l l' : List E}

theorem step_bind {x : Label A} (h : step o x ⟨p, m, l⟩ = some ⟨p', m', l'⟩) :
    step o x ⟨p.bind f, m, l⟩ = some ⟨p'.bind f, m', l'⟩ := by
  cases x with
  | look =>
    cases p with
    | look e k =>
      cases h
      rfl
    | _ => cases h
  | ask n =>
    cases p with
    | ask k =>
      cases h
      rfl
    | _ => cases h
  | other a =>
    obtain ⟨m₁, hm, heq⟩ := Option.map_eq_some_iff.mp h
    cases heq
    rw [step]
    dsimp only
    rw [hm]
    rfl

variable (o) in
/-- The program leads from one configuration to the other, and nobody interferes. -/
def Alone (c c' : Config M E α) : Prop :=
  ∃ tr, Run (step o) c tr c' ∧ ∀ mv ∈ tr, ∀ a, mv.act ≠ .other a

variable (o) in
/-- The program alone gets to record the event. -/
def Records (c : Config M E α) (e : E) : Prop := ∃ c', Alone o c c' ∧ e ∈ c'.log

namespace Alone

variable {c c' c'' : Config M E α}

theorem trans (h : Alone o c c') (h' : Alone o c' c'') : Alone o c c'' := by
  obtain ⟨tr, hrun, htr⟩ := h
  obtain ⟨tr', hrun', htr'⟩ := h'
  refine ⟨tr ++ tr', hrun.append hrun', fun mv hmv ↦ ?_⟩
  exact (List.mem_append.mp hmv).elim (htr mv) (htr' mv)

theorem look {e : M → E} {k : M → Prog M E α} :
    Alone o ⟨.look e k, m, l⟩ ⟨k m, m, l ++ [e m]⟩ := by
  refine ⟨_, .single (a := .look) rfl, fun mv hmv a ↦ ?_⟩
  rw [List.mem_singleton.mp hmv]
  exact fun h ↦ by cases h

/-- What a program does alone it does as the first part of a longer one. -/
theorem bind (h : Alone o ⟨p, m, l⟩ ⟨p', m', l'⟩) :
    Alone o ⟨p >>= f, m, l⟩ ⟨p' >>= f, m', l'⟩ := by
  obtain ⟨tr, hrun, htr⟩ := h
  let ext : Config M E α → Config M E β := fun c ↦ ⟨c.prog.bind f, c.mem, c.log⟩
  refine ⟨tr.map fun mv ↦ ⟨ext mv.src, mv.act, ext mv.dst⟩, ?_, fun mv hmv a ↦ ?_⟩
  -- the same moves, with `f` behind the program
  · suffices h : ∀ {c c'} {tr}, Run (step o) c tr c' →
        Run (step o) (ext c) (tr.map fun mv ↦ ⟨ext mv.src, mv.act, ext mv.dst⟩) (ext c') from
      h hrun
    intro c c' tr hrun
    induction hrun with
    | nil => exact .nil _
    | snoc _ hstep ih =>
      rw [List.map_append]
      exact ih.snoc (step_bind hstep)
  · obtain ⟨mv', hmv', rfl⟩ := List.mem_map.mp hmv
    exact htr mv' hmv' a

end Alone

namespace Records

variable {e : E}

theorem of_alone {c c' : Config M E α} (h : Alone o c c') (h' : Records o c' e) :
    Records o c e := by
  obtain ⟨c'', hc'', he⟩ := h'
  exact ⟨c'', h.trans hc'', he⟩

theorem look {e : M → E} {k : M → Prog M E α} : Records o ⟨.look e k, m, l⟩ (e m) :=
  ⟨_, .look, by simp⟩

theorem bind (h : Records o ⟨p, m, l⟩ e) : Records o ⟨p >>= f, m, l⟩ e := by
  obtain ⟨⟨p', m', l'⟩, hp, he⟩ := h
  exact ⟨_, hp.bind, he⟩

end Records

end Alone

/-! ## Proofs about programs -/

section Logic

variable (R : List E → M → M → Prop) (I : List E → M → Prop)

/-- What the others may do keeps `P`. -/
def Stable (P : List E → M → Prop) : Prop := ∀ l m m', R l m m' → P l m → P l m'

/-- From the log `l` and the memory `m` every look of the program re-establishes `I`, and the
program ends in `Q`, whatever the others do within `R`. -/
def Holds (Q : α → List E → M → Prop) : Prog M E α → List E → M → Prop
  | .ret a, l, m => ∀ m', ReflTransGen (R l) m m' → Q a l m'
  | .crash, _, _ => True
  | .look e k, l, m => ∀ m', ReflTransGen (R l) m m' →
      I (l ++ [e m']) m' ∧ Holds Q (k m') (l ++ [e m']) m'
  | .ask k, l, m => ∀ n m', ReflTransGen (R l) m m' → Holds Q (k n) l m'

/-- The program leads from `P` to `Q`. -/
def Triple (P : List E → M → Prop) (p : Prog M E α) (Q : α → List E → M → Prop) : Prop :=
  ∀ l m, P l m → Holds R I Q p l m

variable {R I} {P P' : List E → M → Prop} {Q Q' : α → List E → M → Prop}
  {S : β → List E → M → Prop} {l : List E} {m m' : M}

theorem Stable.reflTransGen (hP : Stable R P) (h : ReflTransGen (R l) m m') (hm : P l m) :
    P l m' := by
  induction h with
  | refl => exact hm
  | tail _ hstep ih => exact hP _ _ _ hstep ih

theorem Stable.and (hP : Stable R P) (hP' : Stable R P') : Stable R fun l m ↦ P l m ∧ P' l m :=
  fun l m m' h hm ↦ ⟨hP l m m' h hm.1, hP' l m m' h hm.2⟩

/-- What holds of the log alone is stable. -/
theorem Stable.log (φ : List E → Prop) : Stable R fun l _ ↦ φ l := fun _ _ _ _ h ↦ h

namespace Holds

theorem interfere {p : Prog M E α} (h : Holds R I Q p l m) (hR : ReflTransGen (R l) m m') :
    Holds R I Q p l m' := by
  cases p with
  | ret a => exact fun m'' h' ↦ h m'' (hR.trans h')
  | crash => trivial
  | look e k => exact fun m'' h' ↦ h m'' (hR.trans h')
  | ask k => exact fun n m'' h' ↦ h n m'' (hR.trans h')

theorem mono (hQ : ∀ a l m, Q a l m → Q' a l m) {p : Prog M E α} (h : Holds R I Q p l m) :
    Holds R I Q' p l m := by
  induction p generalizing l m with
  | ret a => exact fun m' h' ↦ hQ _ _ _ (h m' h')
  | crash => trivial
  | look e k ih => exact fun m' h' ↦ ⟨(h m' h').1, ih m' (h m' h').2⟩
  | ask k ih => exact fun n m' h' ↦ ih n (h n m' h')

theorem bind {p : Prog M E α} {f : α → Prog M E β}
    (h : Holds R I (fun a l m ↦ Holds R I S (f a) l m) p l m) : Holds R I S (p.bind f) l m := by
  induction p generalizing l m with
  | ret a => exact h m .refl
  | crash => trivial
  | look e k ih => exact fun m' h' ↦ ⟨(h m' h').1, ih m' (h m' h').2⟩
  | ask k ih => exact fun n m' h' ↦ ih n (h n m' h')

end Holds

/-! ## Rules -/

theorem Triple.conseq {p : Prog M E α} (h : Triple R I P p Q) (hP : ∀ l m, P' l m → P l m)
    (hQ : ∀ a l m, Q a l m → Q' a l m) : Triple R I P' p Q' :=
  fun l m hm ↦ (h l m (hP l m hm)).mono hQ

theorem Triple.ret {a : α} (hP : Stable R P) (h : ∀ l m, P l m → Q a l m) :
    Triple R I P (pure a) Q :=
  fun l _ hm m' h' ↦ h l m' (hP.reflTransGen h' hm)

theorem Triple.crash : Triple R I P (Prog.crash : Prog M E α) Q := fun _ _ _ ↦ trivial

theorem Triple.bind {p : Prog M E α} {f : α → Prog M E β} (h : Triple R I P p Q)
    (hf : ∀ a, Triple R I (Q a) (f a) S) : Triple R I P (p >>= f) S :=
  fun l m hm ↦ ((h l m hm).mono fun a l' m' hq ↦ hf a l' m' hq).bind

/-- The look is at some memory `m₀` that satisfies the precondition. -/
theorem Triple.look {e : M → E} {k : M → Prog M E α} (hP : Stable R P)
    (hI : ∀ l m, P l m → I (l ++ [e m]) m)
    (hk : ∀ m₀, Triple R I (fun l m ↦ m = m₀ ∧ ∃ l₀, P l₀ m ∧ l = l₀ ++ [e m₀]) (k m₀) Q) :
    Triple R I P (.look e k) Q :=
  fun l _ hm m' h' ↦
    have hm' := hP.reflTransGen h' hm
    ⟨hI l m' hm', hk m' _ _ ⟨rfl, l, hm', rfl⟩⟩

theorem Triple.ask {k : ℕ → Prog M E α} (hP : Stable R P) (hk : ∀ n, Triple R I P (k n) Q) :
    Triple R I P (.ask k) Q :=
  fun l _ hm n m' h' ↦ hk n l m' (hP.reflTransGen h' hm)

/-! ## Runs -/

/-- The move is the program's, or one of the others' that the rely condition allows. -/
def Relies (R : List E → M → M → Prop) (mv : Move (Config M E α) (Label A)) : Prop :=
  ∀ a, mv.act = .other a → R mv.src.log mv.src.mem mv.dst.mem

/-- A move keeps the proof and the invariant. -/
theorem Holds.step {other : A → M → Option M} (hI : Stable R I) {c c' : Config M E α}
    {x : Label A} (h : I c.log c.mem ∧ Holds R I Q c.prog c.log c.mem)
    (hstep : Interference.step other x c = some c') (hR : Relies R ⟨c, x, c'⟩) :
    I c'.log c'.mem ∧ Holds R I Q c'.prog c'.log c'.mem := by
  obtain ⟨hinv, hprog⟩ := h
  rcases c with ⟨prog, mem, log⟩
  cases x with
  | look =>
    cases prog with
    | look e k =>
      obtain rfl := Option.some.inj hstep
      exact hprog mem .refl
    | _ => cases hstep
  | ask n =>
    cases prog with
    | ask k =>
      obtain rfl := Option.some.inj hstep
      exact ⟨hinv, hprog n mem .refl⟩
    | _ => cases hstep
  -- the log is that of the program, so the rely condition is the one of the proof
  | other a =>
    obtain ⟨mem', hother, rfl⟩ := Option.map_eq_some_iff.mp hstep
    have hrely : R log mem mem' := hR a rfl
    exact ⟨hI _ _ _ hrely hinv, hprog.interfere (.single hrely)⟩

/-- **Soundness.** A program with a proof keeps the invariant in every run in which the others keep
to the rely condition. -/
theorem Holds.run {other : A → M → Option M} (hI : Stable R I) {c c' : Config M E α}
    {tr : List (Move (Config M E α) (Label A))} (hinv : I c.log c.mem)
    (h : Holds R I Q c.prog c.log c.mem) (hrun : Run (Interference.step other) c tr c')
    (hR : ∀ mv ∈ tr, Relies R mv) : I c'.log c'.mem :=
  (hrun.invariant (P := fun c ↦ I c.log c.mem ∧ Holds R I Q c.prog c.log c.mem)
    (fun hc hstep hmove ↦ Holds.step hI hc hstep hmove) hR ⟨hinv, h⟩).1

end Logic

end Interference
