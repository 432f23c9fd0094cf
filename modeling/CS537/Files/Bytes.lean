import CS537.Files.Lifetime
import CS537.Lib.Ring

/-!
# The bytes of a pipe

The counters of a pipe are words and wrap at `2 ^ 32`, a multiple of `PIPESIZE`; what counts is
their difference. In every run, what has been read from a pipe, followed by what the pipe holds, is
what has been written to it, whoever the readers and writers are and however their sections
interleave.
-/

namespace CS537.Files

open Function Transition

variable {s t : Kernel} {q : Slot} {p : ℕ}

/-! ## One pipe -/

namespace Pipe

/-- The number of bytes in the pipe. -/
def count (P : Pipe) : ℕ := (P.nwrite - P.nread).toNat

/-- The bytes in the pipe, the oldest first. -/
def stored (P : Pipe) : List Byte := Ring.contents P.data pipesize P.nread.toNat P.count

/-- The counters are at most `PIPESIZE` apart. -/
def Ok (P : Pipe) : Prop := P.count ≤ pipesize

variable {P P' : Pipe}

@[simp] theorem length_stored (P : Pipe) : P.stored.length = P.count := Ring.length_contents

theorem empty_iff : P.Empty ↔ P.count = 0 := by
  rw [Empty, count, BitVec.toNat_sub]
  have := P.nread.isLt
  have := P.nwrite.isLt
  rw [← BitVec.toNat_inj]
  omega

theorem stored_eq_nil : P.stored = [] ↔ P.Empty := by
  rw [← List.length_eq_zero_iff, length_stored, empty_iff]

theorem full_iff (h : P.Ok) : P.Full ↔ P.count = pipesize := by
  rw [Ok, count, BitVec.toNat_sub] at h
  rw [Full, count, BitVec.toNat_sub, ← BitVec.toNat_inj, BitVec.toNat_add, BitVec.toNat_ofNat]
  have := P.nread.isLt
  have := P.nwrite.isLt
  rw [pipesize] at *
  omega

theorem count_store (h : P.Ok) (b : Byte) : (P.store b).count = P.count + 1 := by
  rw [Ok] at h
  rw [count, BitVec.toNat_sub] at h
  have hstore : (P.store b).count = (P.nwrite + 1 - P.nread).toNat := rfl
  have hone : (1 : BitVec 32).toNat = 1 := rfl
  rw [hstore, count, BitVec.toNat_sub, BitVec.toNat_sub, BitVec.toNat_add, hone]
  have := P.nread.isLt
  have := P.nwrite.isLt
  rw [pipesize] at *
  omega

theorem stored_store (h : P.Ok) (hroom : ¬P.Full) (b : Byte) :
    (P.store b).stored = P.stored ++ [b] := by
  have hlt : (P.count : ℤ) < pipesize := by
    rw [full_iff h] at hroom
    rw [Ok] at h
    omega
  have hindex : index P.nwrite = (P.nread.toNat + P.count) % pipesize := by
    rw [index, count, BitVec.toNat_sub, pipesize]
    have := P.nread.isLt
    have := P.nwrite.isLt
    omega
  rw [stored, count_store h, stored, ← Ring.contents_push hlt b, ← hindex]
  rfl

theorem Ok.store (h : P.Ok) (hroom : ¬P.Full) (b : Byte) : (P.store b).Ok := by
  rw [full_iff h] at hroom
  rw [Ok] at h
  rw [Ok, count_store h]
  omega

/-- `put` stops at a full pipe only, and appends what it takes. -/
theorem put_spec {addr : ℕ → Byte} {n i j : ℕ} (h : P.Ok) (hput : P.put addr n i = (j, P')) :
    P'.Ok ∧ ∃ m ≤ n, j = i + m ∧ P'.stored = P.stored ++ (List.range' i m).map addr ∧
      (m < n → P'.Full) := by
  induction n generalizing i P with
  | zero =>
    obtain ⟨rfl, rfl⟩ := Prod.mk.inj hput
    exact ⟨h, 0, le_refl 0, rfl, by simp, fun hlt ↦ absurd hlt (lt_irrefl 0)⟩
  | succ n ih =>
    rw [put] at hput
    split at hput
    · next hfull =>
      obtain ⟨rfl, rfl⟩ := Prod.mk.inj hput
      exact ⟨h, 0, Nat.zero_le _, rfl, by simp, fun _ ↦ hfull⟩
    · next hroom =>
      obtain ⟨hok, m, hm, hj, hstored, hfull⟩ := ih (h.store hroom (addr i)) hput
      refine ⟨hok, m + 1, by omega, by omega, ?_, fun hlt ↦ hfull (by omega)⟩
      rw [hstored, stored_store h hroom, List.append_assoc, List.range'_succ, List.map_cons]
      rfl

/-- Nothing is put into a full pipe. -/
theorem put_full (h : P.Full) (addr : ℕ → Byte) (n i : ℕ) : P.put addr n i = (i, P) := by
  cases n with
  | zero => rfl
  | succ n => rw [put, if_pos h]

theorem put_eq_room {addr : ℕ → Byte} {n i j : ℕ} (h : P.Ok) (hput : P.put addr n i = (j, P')) :
    j = i + min n (pipesize - P.count) := by
  obtain ⟨hok, m, hm, rfl, hstored, hfull⟩ := put_spec h hput
  have hlen := congrArg List.length hstored
  rw [length_stored, List.length_append, List.length_map, List.length_range', length_stored] at hlen
  rw [full_iff hok] at hfull
  rw [Ok] at h hok
  omega

theorem count_pop (hmore : ¬P.Empty) : P.count = { P with nread := P.nread + 1 }.count + 1 := by
  rw [empty_iff, count, BitVec.toNat_sub] at hmore
  have hpop : count { P with nread := P.nread + 1 } = (P.nwrite - (P.nread + 1)).toNat := rfl
  have hone : (1 : BitVec 32).toNat = 1 := rfl
  rw [hpop, count, BitVec.toNat_sub, BitVec.toNat_sub, BitVec.toNat_add, hone]
  have := P.nread.isLt
  have := P.nwrite.isLt
  omega

theorem stored_pop (hmore : ¬P.Empty) :
    P.stored = P.data (index P.nread) :: { P with nread := P.nread + 1 }.stored := by
  rw [stored, count_pop hmore, Ring.contents_pop]
  refine congrArg₂ _ rfl (Ring.contents_congr ?_)
  have hone : (1 : BitVec 32).toNat = 1 := rfl
  rw [BitVec.toNat_add, hone, pipesize]
  omega

/-- `get` stops at an empty pipe only, and takes from its head. -/
theorem get_spec {n : ℕ} {l : List Byte} (h : P.Ok) (hget : P.get n = (l, P')) :
    P'.Ok ∧ P.stored = l ++ P'.stored ∧ l.length ≤ n ∧ (l.length < n → P'.Empty) := by
  induction n generalizing P l with
  | zero =>
    obtain ⟨rfl, rfl⟩ := Prod.mk.inj hget
    exact ⟨h, rfl, le_refl 0, fun hlt ↦ absurd hlt (lt_irrefl 0)⟩
  | succ n ih =>
    rw [get] at hget
    split at hget
    · next hempty =>
      obtain ⟨rfl, rfl⟩ := Prod.mk.inj hget
      exact ⟨h, rfl, Nat.zero_le _, fun _ ↦ hempty⟩
    · next hmore =>
      have hcount := count_pop hmore
      cases hrec : { P with nread := P.nread + 1 }.get n with
      | mk l' P'' =>
        rw [hrec] at hget
        obtain ⟨rfl, rfl⟩ := Prod.mk.inj hget
        have hok : Pipe.Ok { P with nread := P.nread + 1 } := by
          rw [Ok] at h ⊢
          omega
        obtain ⟨hok', hstored, hle, hempty⟩ := ih hok hrec
        refine ⟨hok', ?_, by simpa using hle, fun hlt ↦ hempty (by simpa using hlt)⟩
        rw [stored_pop hmore, hstored, List.cons_append]

theorem get_eq_take (h : P.Ok) (n : ℕ) : (P.get n).1 = P.stored.take n := by
  obtain ⟨-, hstored, hle, hempty⟩ := get_spec h (Prod.eta (P.get n)).symm
  rcases hle.eq_or_lt with heq | hlt
  · rw [hstored, List.take_left' heq]
  · rw [hstored, stored_eq_nil.mpr (hempty hlt), List.append_nil, List.take_of_length_le hle]

@[simp] theorem count_shut (P : Pipe) (w : Bool) : (P.shut w).count = P.count := by cases w <;> rfl

@[simp] theorem stored_shut (P : Pipe) (w : Bool) : (P.shut w).stored = P.stored := by
  cases w <;> rfl

theorem kept_eq_some (h : P.kept = some P') : P' = P := by
  rw [kept] at h
  split at h
  · cases h
  · exact (Option.some.inj h).symm

end Pipe

/-! ## Runs -/

/-- What has been written to a pipe and what has been read from it since it was made. -/
structure Traffic where
  written : List Byte
  taken : List Byte

/-- The bytes that a move copies into the pipe `p` and out of it are added to its traffic, which a
new pipe in the page begins afresh. -/
def Traffic.record (p : ℕ) (T : Traffic) (m : Move Kernel Act) : Traffic :=
  match m.act with
  | .kalloc _ (some p') => if p' = p then ⟨[], []⟩ else T
  | .pipewrite q addr =>
    match (m.src.proc q).pos, m.src.pipe p with
    | .write p' n i, some P =>
      if p' = p then
        { T with
          written := T.written ++ (List.range' i ((P.put addr (n.toNat - i) i).1 - i)).map addr }
      else T
    | _, _ => T
  | .piperead q =>
    match (m.src.proc q).pos, m.src.pipe p with
    | .read p' n, some P => if p' = p then { T with taken := T.taken ++ (P.get n.toNat).1 } else T
    | _, _ => T
  | _ => T

def traffic (p : ℕ) (tr : List (Move Kernel Act)) : Traffic := tr.foldl (.record p) ⟨[], []⟩

/-- The pipe holds what has been written to it and not read. -/
def Booked (p : ℕ) (T : Traffic) (s : Kernel) : Prop :=
  ∀ P, s.pipe p = some P → P.Ok ∧ T.written = T.taken ++ P.stored

namespace Booked

variable {T : Traffic} {a : Act}

theorem congr (h : Booked p T s) (hpipe : t.pipe p = s.pipe p) : Booked p T t :=
  fun P hp ↦ h P (hpipe ▸ hp)

theorem fresh (h : Booked p T s) (q : Slot) {p' : ℕ}
    (hpipe : t.pipe = update s.pipe p' (some .fresh)) :
    Booked p (T.record p ⟨s, .kalloc q (some p'), t⟩) t := by
  intro P hp
  rw [hpipe] at hp
  by_cases hne : p' = p
  · subst hne
    rw [update_self] at hp
    obtain rfl := Option.some.inj hp
    simp only [Traffic.record, if_true]
    exact ⟨Nat.zero_le _, rfl⟩
  · rw [update_of_ne (Ne.symm hne)] at hp
    simp only [Traffic.record, if_neg hne]
    exact h P hp

theorem pipeclose (h : Booked p T s) {p' : ℕ} {w : Bool} {P : Pipe} (hp' : s.pipe p' = some P)
    (hpipe : t.pipe = update s.pipe p' (P.shut w).kept) : Booked p T t := by
  intro P' hp
  rw [hpipe] at hp
  by_cases hne : p = p'
  · subst hne
    rw [update_self] at hp
    obtain rfl := Pipe.kept_eq_some hp
    rw [Pipe.Ok, Pipe.count_shut, Pipe.stored_shut]
    exact h P hp'
  · rw [update_of_ne hne] at hp
    exact h P' hp

theorem piperead (h : Booked p T s) {p' : ℕ} {n : ℤ} {P P' : Pipe} {l : List Byte}
    (hq : (s.proc q).pos = .read p' n) (hp' : s.pipe p' = some P) (hget : P.get n.toNat = (l, P'))
    (hpipe : t.pipe = update s.pipe p' (some P')) :
    Booked p (T.record p ⟨s, .piperead q, t⟩) t := by
  intro P'' hp
  rw [hpipe] at hp
  by_cases hne : p' = p
  · subst hne
    rw [update_self] at hp
    obtain rfl := Option.some.inj hp
    obtain ⟨hok, hbook⟩ := h P hp'
    obtain ⟨hok', hstored, -⟩ := Pipe.get_spec hok hget
    refine ⟨hok', ?_⟩
    simp only [Traffic.record, hq, hp', if_true, hget]
    rw [hbook, hstored, List.append_assoc]
  · rw [update_of_ne (Ne.symm hne)] at hp
    simp only [Traffic.record, hq, hp, if_neg hne]
    exact h P'' hp

theorem pipewrite (h : Booked p T s) {p' : ℕ} {n : ℤ} {i j : ℕ} {P P' : Pipe} {addr : ℕ → Byte}
    (hq : (s.proc q).pos = .write p' n i) (hp' : s.pipe p' = some P)
    (hput : P.put addr (n.toNat - i) i = (j, P')) (hpipe : t.pipe = update s.pipe p' (some P')) :
    Booked p (T.record p ⟨s, .pipewrite q addr, t⟩) t := by
  intro P'' hp
  rw [hpipe] at hp
  by_cases hne : p' = p
  · subst hne
    rw [update_self] at hp
    obtain rfl := Option.some.inj hp
    obtain ⟨hok, hbook⟩ := h P hp'
    obtain ⟨hok', m, -, hj, hstored, -⟩ := Pipe.put_spec hok hput
    refine ⟨hok', ?_⟩
    simp only [Traffic.record, hq, hp', if_true, hput]
    rw [hbook, hstored, hj, Nat.add_sub_cancel_left, List.append_assoc]
  · rw [update_of_ne (Ne.symm hne)] at hp
    simp only [Traffic.record, hq, hp, if_neg hne]
    exact h P'' hp

/-- A section of `piperead` that finds the pipe empty copies nothing. -/
theorem emptyRead (h : Booked p T s) {p' : ℕ} {n : ℤ} {P : Pipe} (hq : (s.proc q).pos = .read p' n)
    (hp' : s.pipe p' = some P) (hempty : P.Empty) (hpipe : t.pipe = s.pipe) :
    Booked p (T.record p ⟨s, .piperead q, t⟩) t := by
  have hget : P.get n.toNat = ([], P) := by
    cases n.toNat with
    | zero => rfl
    | succ n => rw [Pipe.get, if_pos hempty]
  refine h.piperead hq hp' hget ?_
  rw [hpipe, ← hp', update_eq_self]

theorem trans (h : Booked p T s) (ht : Trans s a t) : Booked p (T.record p ⟨s, a, t⟩) t := by
  cases ht with
  | fail ha => cases ha <;> exact h.congr rfl
  | inode ha => cases ha <;> exact h.congr rfl
  | pipeFull hq hp => exact h.fresh _ rfl
  | pipe hq hp => exact h.fresh _ rfl
  | pipeclose hq hp => exact h.pipeclose hp rfl
  | readKilled hq hawake hp hempty => exact h.emptyRead hq hp hempty.1 rfl
  | readSleep hq hawake hp hempty => exact h.emptyRead hq hp hempty.1 rfl
  | piperead hq hawake hp hmore hget => exact h.piperead hq hp hget rfl
  | pipewrite hq hawake hp hput => exact h.pipewrite hq hp hput rfl
  | writeBroken hq hawake hp hput => exact h.pipewrite hq hp hput rfl
  | writeSleep hq hawake hp hput => exact h.pipewrite hq hp hput rfl
  | sysDup => exact h.congr rfl
  | openFull => exact h.congr rfl
  | sysOpen => exact h.congr rfl
  | sysClose => exact h.congr rfl
  | sysPipe => exact h.congr rfl
  | pipeallocFail => exact h.congr rfl
  | pipealloc => exact h.congr rfl
  | kallocFail => exact h.congr rfl
  | sysRead => exact h.congr rfl
  | sysWrite => exact h.congr rfl
  | fork => exact h.congr rfl
  | exit => exact h.congr rfl
  | wait => exact h.congr rfl
  | kill => exact h.congr rfl
  | drop => exact h.congr rfl
  | dropLast => exact h.congr rfl
  | dropEnd => exact h.congr rfl
  | forkSkip => exact h.congr rfl
  | forkDup => exact h.congr rfl
  | forkEnd => exact h.congr rfl
  | exitSkip => exact h.congr rfl
  | exitClose => exact h.congr rfl
  | exitEnd => exact h.congr rfl

theorem run {tr : List (Move Kernel Act)} (h : Run step boot tr s) (p : ℕ) :
    Booked p (traffic p tr) s := by
  induction h with
  | nil => exact fun P hp ↦ nomatch hp
  | snoc _ hstep ih =>
    rw [traffic, List.foldl_append]
    exact ih.trans (trans_of_step hstep)

end Booked

variable {tr : List (Move Kernel Act)} {n : ℤ}

/-- **First in, first out.** In every run, whichever processes read and write and however their
sections interleave, the bytes read from a pipe are a prefix of those written to it, in their order,
and the pipe holds the others, `PIPESIZE` of them at most. -/
theorem fifo {P : Pipe} (h : Run step boot tr s) (hp : s.pipe p = some P) :
    (traffic p tr).written = (traffic p tr).taken ++ P.stored ∧ P.stored.length ≤ pipesize := by
  obtain ⟨hok, hbook⟩ := Booked.run h p P hp
  exact ⟨hbook, by rwa [Pipe.length_stored]⟩

/-- The first process writes three bytes. -/
def writing : List Act := [.sysWrite initproc 1 3, .pipewrite initproc fun i ↦ i]

theorem fifo_writing :
    ∃ P, (piped writing).pipe 4096 = some P ∧ P.stored = [0, 1, 2] := by
  obtain ⟨P, hp⟩ : ∃ P, (piped writing).pipe 4096 = some P :=
    Option.isSome_iff_exists.mp (by decide +kernel)
  have hfifo := fifo (run_piped writing (by decide +kernel)) hp
  have hwritten : (traffic 4096 (moves step (pipeline ++ writing) boot)).written = [0, 1, 2] := by
    decide +kernel
  have htaken : (traffic 4096 (moves step (pipeline ++ writing) boot)).taken = [] := by
    decide +kernel
  rw [hwritten, htaken] at hfifo
  exact ⟨P, hp, hfifo.1.symm⟩

/-- The bytes that have been written and not read. -/
def Traffic.unread (T : Traffic) : List Byte := T.written.drop T.taken.length

/-- The number of bytes for which there is room in the pipe. -/
def Traffic.room (T : Traffic) : ℕ := pipesize - T.unread.length

theorem unread_eq {P : Pipe} (h : Run step boot tr s) (hp : s.pipe p = some P) :
    (traffic p tr).unread = P.stored := by
  rw [Traffic.unread, (fifo h hp).1, List.drop_left]

theorem ends_pos_iff {P : Pipe} (h : Reach s) (hp : s.pipe p = some P) (w : Bool) :
    0 < ends p w s ↔ P.isOpen w := by
  rw [h.good.ends.count p w, opens, hp, Option.elim_some]
  split <;> simp [*]

theorem traffic_concat (p : ℕ) (tr : List (Move Kernel Act)) (m : Move Kernel Act) :
    traffic p (tr ++ [m]) = (traffic p tr).record p m := List.foldl_append ..

/-- **A read.** A section of `piperead` copies the oldest bytes that nobody has read, as many as
are asked for and there. With none there it waits, or fails if its process is killed, as long as the
pipe has a writer; only without one does it return `0`. -/
theorem piperead_result (h : Run step boot tr s) (hq : (s.proc q).pos = .read p n)
    (ht : step (.piperead q) s = some t) :
    t.proc q = (if (traffic p tr).unread = [] ∧ 0 < ends p true s then
        if (s.proc q).killed then (s.proc q).reply (-1) else (s.proc q).fallAsleep
      else (s.proc q).reply (min n.toNat (traffic p tr).unread.length)) ∧
    traffic p (tr ++ [⟨s, .piperead q, t⟩]) =
      { traffic p tr with
        taken := (traffic p tr).taken ++ (traffic p tr).unread.take n.toNat } := by
  have hreach : Reach s := ⟨boot, tr, rfl, h, by simp⟩
  obtain ⟨P, hp, -⟩ := hreach.good.ends.exists_of_read hq
  have hwait : (traffic p tr).unread = [] ∧ 0 < ends p true s ↔ P.Empty ∧ P.writeopen := by
    rw [unread_eq h hp, Pipe.stored_eq_nil]
    exact and_congr_right fun _ ↦ ends_pos_iff hreach hp true
  have htake : (P.get n.toNat).1 = (traffic p tr).unread.take n.toNat := by
    rw [unread_eq h hp, Pipe.get_eq_take (Booked.run h p P hp).1]
  refine ⟨?_, ?_⟩
  · have hlen : (P.get n.toNat).1.length = min n.toNat (traffic p tr).unread.length := by
      rw [htake, List.length_take]
    simp only [hwait]
    cases trans_of_step ht with
    | fail ha => cases ha
    | inode ha => cases ha
    | readKilled hq' hawake hp' hempty hkill =>
      obtain ⟨rfl, rfl⟩ := Pos.read.inj (hq.symm.trans hq')
      obtain rfl := Option.some.inj (hp.symm.trans hp')
      rw [if_pos hempty, if_pos hkill, Kernel.setProc_proc, update_self]
    | readSleep hq' hawake hp' hempty hkill =>
      obtain ⟨rfl, rfl⟩ := Pos.read.inj (hq.symm.trans hq')
      obtain rfl := Option.some.inj (hp.symm.trans hp')
      rw [if_pos hempty, if_neg (by simp [hkill]), Kernel.setProc_proc, update_self]
    | piperead hq' hawake hp' hmore hget =>
      obtain ⟨rfl, rfl⟩ := Pos.read.inj (hq.symm.trans hq')
      obtain rfl := Option.some.inj (hp.symm.trans hp')
      rw [hget] at hlen
      rw [if_neg hmore, Kernel.setProc_proc, update_self]
      refine congrArg _ ?_
      dsimp only at hlen
      omega
  · rw [traffic_concat]
    simp only [Traffic.record, hq, hp, if_true, htake]

/-- Then the child reads two. -/
def reading : List Act := writing ++ [.sysRead second 0 2]

theorem piperead_reading :
    ∃ t, step (.piperead second) (piped reading) = some t ∧ (t.proc second).ret = 2 := by
  have hrun := run_piped reading (by decide +kernel)
  have hq : ((piped reading).proc second).pos = .read 4096 2 := by decide +kernel
  have hlen : (traffic 4096 (moves step (pipeline ++ reading) boot)).unread.length = 3 := by
    decide +kernel
  obtain ⟨t, ht⟩ : ∃ t, step (.piperead second) (piped reading) = some t :=
    Option.isSome_iff_exists.mp (by decide +kernel)
  have hread := (piperead_result hrun hq ht).1
  rw [if_neg fun hnone ↦ by simp [hnone.1] at hlen, hlen] at hread
  exact ⟨t, ht, hread ▸ rfl⟩

/-- **A write.** A section of `pipewrite` appends what there is room for. When that is not all, it
fails if the pipe has no reader or its process is killed, and waits otherwise. -/
theorem pipewrite_result {i : ℕ} {addr : ℕ → Byte} (h : Run step boot tr s)
    (hq : (s.proc q).pos = .write p n i) (ht : step (.pipewrite q addr) s = some t) :
    t.proc q = (if n.toNat - i ≤ (traffic p tr).room then (s.proc q).reply n
      else if ends p false s = 0 ∨ (s.proc q).killed then (s.proc q).reply (-1)
      else ((s.proc q).goto (.write p n (i + (traffic p tr).room))).fallAsleep) ∧
    traffic p (tr ++ [⟨s, .pipewrite q addr, t⟩]) =
      { traffic p tr with
        written := (traffic p tr).written ++
          (List.range' i (min (n.toNat - i) (traffic p tr).room)).map addr } := by
  have hreach : Reach s := ⟨boot, tr, rfl, h, by simp⟩
  obtain ⟨P, hp, -⟩ := hreach.good.ends.exists_of_write hq
  have hroom : (traffic p tr).room = pipesize - P.count := by
    rw [Traffic.room, unread_eq h hp, Pipe.length_stored]
  cases hput : P.put addr (n.toNat - i) i with
  | mk j P' =>
    have hj := Pipe.put_eq_room (Booked.run h p P hp).1 hput
    rw [← hroom] at hj
    have hopen : ends p false s = 0 ↔ P'.readopen = false := by
      have hput' := Pipe.isOpen_put addr (n.toNat - i) i P false
      rw [hput] at hput'
      rw [← not_iff_not, ← ne_eq, ← Nat.pos_iff_ne_zero, ends_pos_iff hreach hp, ← hput',
          Bool.not_eq_false]
      rfl
    refine ⟨?_, ?_⟩
    · cases trans_of_step ht with
      | fail ha => cases ha
      | inode ha => cases ha
      | pipewrite hq' hawake hp' hput' hdone =>
        obtain ⟨rfl, rfl, rfl⟩ := Pos.write.inj (hq.symm.trans hq')
        obtain rfl := Option.some.inj (hp.symm.trans hp')
        obtain ⟨rfl, rfl⟩ := Prod.mk.inj (hput.symm.trans hput')
        rw [if_pos (by omega), Kernel.setProc_proc, update_self]
      | writeBroken hq' hawake hp' hput' hfull hbroken =>
        obtain ⟨rfl, rfl, rfl⟩ := Pos.write.inj (hq.symm.trans hq')
        obtain rfl := Option.some.inj (hp.symm.trans hp')
        obtain ⟨rfl, rfl⟩ := Prod.mk.inj (hput.symm.trans hput')
        rw [if_neg (by omega), if_pos (by rwa [hopen]), Kernel.setProc_proc, update_self]
      | writeSleep hq' hawake hp' hput' hfull hreadopen hkill =>
        obtain ⟨rfl, rfl, rfl⟩ := Pos.write.inj (hq.symm.trans hq')
        obtain rfl := Option.some.inj (hp.symm.trans hp')
        obtain ⟨rfl, rfl⟩ := Prod.mk.inj (hput.symm.trans hput')
        have hstay : ¬(ends p false s = 0 ∨ (s.proc q).killed = true) := by
          rw [hopen, hreadopen, hkill]
          simp
        have hmin : min (n.toNat - i) (traffic p tr).room = (traffic p tr).room := by omega
        rw [if_neg (by omega), if_neg hstay, ← hmin, ← hj, Kernel.setProc_proc, update_self]
    · rw [traffic_concat]
      simp only [Traffic.record, hq, hp, if_true, hput]
      rw [hj, Nat.add_sub_cancel_left]

theorem pipewrite_piped : ∃ t, step (.pipewrite initproc fun i ↦ i)
    (piped [.sysWrite initproc 1 3]) = some t ∧ (t.proc initproc).ret = 3 := by
  have hrun := run_piped [.sysWrite initproc 1 3] (by decide +kernel)
  have hq : ((piped [.sysWrite initproc 1 3]).proc initproc).pos = .write 4096 3 0 := by
    decide +kernel
  obtain ⟨t, ht⟩ : ∃ t, step (.pipewrite initproc fun i ↦ i) (piped [.sysWrite initproc 1 3]) =
    some t := Option.isSome_iff_exists.mp (by decide +kernel)
  have hwrite := (pipewrite_result hrun hq ht).1
  rw [if_pos (by decide +kernel)] at hwrite
  exact ⟨t, ht, hwrite ▸ rfl⟩

end CS537.Files
