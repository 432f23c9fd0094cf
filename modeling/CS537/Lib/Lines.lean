import Mathlib.Data.Nat.Basic

/-!
# Lines

A sequence is cut into lines: a line ends with a newline, at a given length, or at the end.
-/

namespace Lines

variable {α : Type*} [DecidableEq α] {nl : α}

/-- The first line, of at most so many elements, and the rest. -/
def takeLine (nl : α) : ℕ → List α → List α × List α
  | 0, s => ([], s)
  | _ + 1, [] => ([], [])
  | n + 1, a :: s =>
    if a = nl then ([a], s)
    else
      let (line, rest) := takeLine nl n s
      (a :: line, rest)

theorem takeLine_append (nl : α) (n : ℕ) (s : List α) :
    (takeLine nl n s).1 ++ (takeLine nl n s).2 = s := by
  induction n generalizing s with
  | zero => rfl
  | succ n ih =>
    cases s with
    | nil => rfl
    | cons a s =>
      rw [takeLine]
      split_ifs
      · rfl
      · exact congrArg (a :: ·) (ih s)

theorem takeLine_ne_nil (nl : α) {n : ℕ} {s : List α} (h : s ≠ []) :
    (takeLine nl (n + 1) s).1 ≠ [] := by
  cases s with
  | nil => exact absurd rfl h
  | cons a s =>
    rw [takeLine]
    split_ifs
    · exact List.cons_ne_nil _ _
    · exact List.cons_ne_nil _ _

/-- A newline is the last element of its line. -/
theorem eq_of_takeLine {n : ℕ} {s l l' : List α} (h : (takeLine nl n s).1 = l ++ nl :: l') :
    l' = [] := by
  induction n generalizing s l with
  | zero => exact absurd h.symm (List.append_ne_nil_of_right_ne_nil l (List.cons_ne_nil nl l'))
  | succ n ih =>
    cases s with
    | nil => exact absurd h.symm (List.append_ne_nil_of_right_ne_nil l (List.cons_ne_nil nl l'))
    | cons a s =>
      rw [takeLine] at h
      split_ifs at h with ha
      · cases l with
        | nil => exact (List.cons.inj h).2.symm
        | cons b l =>
          exact absurd (List.cons.inj h).2.symm
            (List.append_ne_nil_of_right_ne_nil l (List.cons_ne_nil nl l'))
      · cases l with
        | nil => exact absurd (List.cons.inj h).1 ha
        | cons b l => exact ih (List.cons.inj h).2

theorem length_rest_lt {n : ℕ} {s : List α} (h : s ≠ []) :
    (takeLine nl (n + 1) s).2.length < s.length := by
  have happ := congrArg List.length (takeLine_append nl (n + 1) s)
  have hpos := List.length_pos_iff.mpr (takeLine_ne_nil nl (n := n) h)
  rw [List.length_append] at happ
  omega

/-- All lines, of at most `n + 1` elements each. -/
def lines (nl : α) (n : ℕ) (s : List α) : List (List α) :=
  if h : s = [] then []
  else (takeLine nl (n + 1) s).1 :: lines nl n (takeLine nl (n + 1) s).2
termination_by s.length
decreasing_by exact length_rest_lt h

theorem lines_nil (nl : α) (n : ℕ) : lines nl n [] = [] := by
  rw [lines]
  exact dif_pos rfl

theorem lines_of_ne_nil {n : ℕ} {s : List α} (h : s ≠ []) :
    lines nl n s = (takeLine nl (n + 1) s).1 :: lines nl n (takeLine nl (n + 1) s).2 := by
  rw [lines]
  exact dif_neg h

end Lines
