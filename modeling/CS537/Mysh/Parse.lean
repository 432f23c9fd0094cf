import CS537.Lib.Words
import CS537.Mysh.Shell
import Mathlib.Data.List.DropRight

/-!
# `parse` in its arrays

`parse` and `strtok` as they work on the array `commands` and on pointers into it: `strtok` writes
a NUL behind every token, and `parse` cuts the last token off by a NULL, or by a NUL in place of its
last byte. A pointer into `commands` is an index. What comes of it is compared with the words of the
line.
-/

namespace CS537.Mysh

open Words

/-! ## The grammar of a line -/

/-- The last character that is not white space. -/
def lastChar (line : List Byte) : Option Byte := (line.rdropWhile isDelim).getLast?

/-- The line without its `&`, if that is the last character. -/
def withoutAmpersand (line : List Byte) : List Byte :=
  if lastChar line = some ampersand then
    (line.rdropWhile isDelim).dropLast ++ line.rtakeWhile isDelim
  else line

/-- The last word of a line ends with its last character. -/
theorem lastChar_cases (line : List Byte) :
    (words isDelim line = [] ∧ lastChar line = none) ∨ ∃ init t c,
      words isDelim line = init ++ [t ++ [c]] ∧ lastChar line = some c ∧
        (c = ampersand → words isDelim (withoutAmpersand line) =
          init ++ if t = [] then [] else [t]) := by
  have hsplit : line.rdropWhile isDelim ++ line.rtakeWhile isDelim = line :=
    List.rdropWhile_append_rtakeWhile ..
  have hspace : ∀ b ∈ line.rtakeWhile isDelim, isDelim b := fun b hb ↦ List.mem_rtakeWhile_imp hb
  have hwords : words isDelim line = words isDelim (line.rdropWhile isDelim) := calc
    words isDelim line = words isDelim (line.rdropWhile isDelim ++ line.rtakeWhile isDelim) := by
      rw [hsplit]
    _ = _ := words_append_right hspace
  rw [hwords, lastChar, withoutAmpersand, lastChar]
  by_cases hnil : line.rdropWhile isDelim = []
  · rw [hnil]
    exact Or.inl ⟨words_nil, rfl⟩
  · have hlast : isDelim ((line.rdropWhile isDelim).getLast hnil) = false :=
      Bool.eq_false_iff.mpr (List.rdropWhile_last_not isDelim line hnil)
    have hget := List.getLast?_eq_some_getLast hnil
    have hinit := List.dropLast_concat_getLast hnil
    generalize (line.rdropWhile isDelim).getLast hnil = c at *
    obtain ⟨init, t, hconcat, hbefore⟩ := words_concat hlast (line.rdropWhile isDelim).dropLast
    rw [hinit] at hconcat
    refine Or.inr ⟨init, t, c, hconcat, hget, fun hc ↦ ?_⟩
    rw [hget, hc, if_pos rfl, words_append_right hspace, hbefore]

/-! ## The program -/

namespace Arrays

/-- `ARGC`. -/
def argcMax : ℕ := 256

/-- `a[i] = x`; `none` is an index out of bounds. -/
def store {α : Type} (a : List α) (i : ℕ) (x : α) : Option (List α) :=
  if i < a.length then some (a.set i x) else none

/-- The string at a pointer. -/
def strAt (commands : List Byte) (p : ℕ) : List Byte := cstr (commands.drop p)

/-- `strtok` with the pointer that the last call has left: the token, `commands`, and the pointer
for the next call. -/
def strtok (commands : List Byte) (save : ℕ) : Option (Option ℕ × List Byte × ℕ) :=
  let token := save + ((strAt commands save).takeWhile isDelim).length
  let last := token + ((strAt commands token).takeWhile (!isDelim ·)).length
  if token = last then some (none, commands, token)
  else if commands[last]? = some 0 then some (some token, commands, last)
  else do
    let commands ← store commands last 0
    pure (some token, commands, last + 1)

/-- The loop of `parse`, for at most so many tokens: `commands`, `argv` and `i`. -/
def walk : ℕ → Option ℕ → List Byte → ℕ → List (Option ℕ) → ℕ →
    Option (List Byte × List (Option ℕ) × ℕ)
  | 0, _, commands, _, argv, i => some (commands, argv, i)
  | n + 1, token, commands, save, argv, i => do
    let argv ← store argv i token
    let (token, commands, save) ← strtok commands save
    if token = none then pure (commands, argv, i + 1)
    else walk n token commands save argv (i + 1)

/-- The result of `parse`, and what it has made of its arguments. -/
structure Parsed where
  ret : ℤ
  commands : List Byte
  argc : ℤ
  argv : List (Option ℕ)
  background : ℤ
  deriving DecidableEq, Repr

/-- `parse` behind its loop. -/
def finish (commands : List Byte) (argc : ℤ) (argv : List (Option ℕ)) (i : ℕ) (background : ℤ) :
    Option Parsed :=
  if argv[0]? = some none then some ⟨-1, commands, argc, argv, background⟩
  else do
    let argv ← store argv i none
    let arg := (argv[i - 1]?.join).getD 0
    let len := (strAt commands arg).length
    if commands[arg]? = some ampersand ∧ commands[arg + 1]? = some 0 then
      let argv ← store argv (i - 1) none
      pure ⟨i - 1, commands, i - 1, argv, 1⟩
    else if commands[arg + len - 1]? = some ampersand then
      let commands ← store commands (arg + len - 1) 0
      pure ⟨i, commands, i, argv, 1⟩
    else pure ⟨i, commands, i, argv, background⟩

def parse (commands : List Byte) (argc : ℤ) (argv : List (Option ℕ)) (background : ℤ) :
    Option Parsed := do
  let (token, commands, save) ← strtok commands 0
  let (commands, argv, i) ← walk commands.length token commands save argv 0
  finish commands argc argv i background

/-! ## Strings in the array -/

variable {commands : List Byte} {p q i : ℕ}

theorem cstr_append_zero {s : List Byte} (hs : (0 : Byte) ∉ s) (l : List Byte) :
    cstr (s ++ 0 :: l) = s := by
  have hpos : ∀ b ∈ s, decide (b ≠ 0) = true := fun b hb ↦
    decide_eq_true fun h : b = 0 ↦ hs (h ▸ hb)
  rw [cstr, List.takeWhile_append_of_pos hpos]
  exact List.append_nil s

theorem zero_notMem_cstr (l : List Byte) : (0 : Byte) ∉ cstr l := fun h ↦ by
  simpa using List.mem_takeWhile_imp h

/-- A string has a NUL behind it. -/
theorem exists_drop_eq (h : 0 ∈ commands.drop p) :
    ∃ l, commands.drop p = strAt commands p ++ 0 :: l := by
  have hsplit := List.takeWhile_append_dropWhile (p := fun b : Byte ↦ decide (b ≠ 0))
    (l := commands.drop p)
  cases hrest : (commands.drop p).dropWhile fun b ↦ decide (b ≠ 0) with
  | nil =>
    rw [hrest, List.append_nil] at hsplit
    exact absurd (hsplit ▸ h) (zero_notMem_cstr _)
  | cons b l =>
    have hb : b = 0 := by simpa using of_dropWhile_eq_cons hrest
    rw [hrest, hb] at hsplit
    exact ⟨l, hsplit.symm⟩

/-- A pointer further into a string. -/
theorem strAt_add {s t : List Byte} (h : 0 ∈ commands.drop p) (hs : strAt commands p = s ++ t) :
    strAt commands (p + s.length) = t ∧ 0 ∈ commands.drop (p + s.length) := by
  obtain ⟨l, hl⟩ := exists_drop_eq h
  have hzero : (0 : Byte) ∉ s ++ t := hs ▸ zero_notMem_cstr _
  have hdrop : commands.drop (p + s.length) = t ++ 0 :: l := by
    rw [← List.drop_drop, hl, hs, List.append_assoc, List.drop_left]
  refine ⟨?_, ?_⟩
  · rw [strAt, hdrop, cstr_append_zero fun ht ↦ hzero (List.mem_append_right s ht)]
  · rw [hdrop]
    exact List.mem_append_right t List.mem_cons_self

/-- A NUL in the middle of a string cuts it off, and what lies behind the NUL stays. -/
theorem strAt_set {s t : List Byte} {b : Byte} (h : 0 ∈ commands.drop p)
    (hs : strAt commands p = s ++ b :: t) :
    strAt (commands.set (p + s.length) 0) p = s ∧
      strAt (commands.set (p + s.length) 0) (p + s.length + 1) = t ∧
      0 ∈ (commands.set (p + s.length) 0).drop (p + s.length + 1) := by
  obtain ⟨l, hl⟩ := exists_drop_eq h
  have hzero : (0 : Byte) ∉ s ++ b :: t := hs ▸ zero_notMem_cstr _
  have hset : (commands.set (p + s.length) 0).drop p = s ++ 0 :: (t ++ 0 :: l) := by
    rw [List.drop_set, if_neg (by omega), Nat.add_sub_cancel_left, hl, hs, List.append_assoc,
      List.set_append_right _ _ le_rfl, Nat.sub_self]
    rfl
  have hdrop : (commands.set (p + s.length) 0).drop (p + s.length + 1) = t ++ 0 :: l := by
    rw [Nat.add_assoc, ← List.drop_drop, hset, ← List.drop_drop, List.drop_left]
    rfl
  refine ⟨?_, ?_, ?_⟩
  · rw [strAt, hset, cstr_append_zero fun ht ↦ hzero (List.mem_append_left _ ht)]
  · rw [strAt, hdrop, cstr_append_zero fun ht ↦
      hzero (List.mem_append_right s (List.mem_cons_of_mem b ht))]
  · rw [hdrop]
    exact List.mem_append_right t List.mem_cons_self

/-- A store behind a string. -/
theorem strAt_set_of_lt {b : Byte} (h : 0 ∈ commands.drop q)
    (hlt : q + (strAt commands q).length < i) :
    strAt (commands.set i b) q = strAt commands q := by
  obtain ⟨l, hl⟩ := exists_drop_eq h
  have hset : (commands.set i b).drop q = strAt commands q ++
      0 :: l.set (i - q - (strAt commands q).length - 1) b := by
    rw [List.drop_set, if_neg (by omega), hl, List.set_append_right _ _ (by omega)]
    obtain ⟨k, hk⟩ : ∃ k, i - q - (strAt commands q).length = k + 1 :=
      Nat.exists_eq_add_one.mpr (by omega)
    rw [hk, List.set_cons_succ]
    rfl
  rw [strAt, hset]
  exact cstr_append_zero (zero_notMem_cstr _) _

theorem mem_drop_of_le (h : 0 ∈ commands.drop q) (hle : p ≤ q) : 0 ∈ commands.drop p := by
  obtain ⟨k, rfl⟩ := Nat.exists_eq_add_of_le hle
  rw [← List.drop_drop] at h
  exact List.mem_of_mem_drop h

/-! ## A token -/

/-- A call of `strtok` cuts the first word off and leaves the other ones. -/
structure Cuts (commands : List Byte) (save : ℕ) (p : ℕ) (commands' : List Byte) (save' : ℕ) :
    Prop where
  words : words isDelim (strAt commands save) =
    strAt commands' p :: words isDelim (strAt commands' save')
  ne_nil : strAt commands' p ≠ []
  le : save ≤ p
  behind : p + (strAt commands' p).length ≤ save'
  terminated : 0 ∈ commands'.drop save'
  length : commands'.length = commands.length
  frame : ∀ q, 0 ∈ commands.drop q → q + (strAt commands q).length ≤ save →
    strAt commands' q = strAt commands q

variable {save save' : ℕ} {commands' : List Byte}

theorem lt_length (h : 0 ∈ commands.drop p) : p < commands.length := by
  have hpos := List.length_pos_of_mem h
  rw [List.length_drop] at hpos
  omega

theorem getElem?_last (h : 0 ∈ commands.drop p) :
    commands[p]? = some 0 ↔ strAt commands p = [] := by
  obtain ⟨l, hl⟩ := exists_drop_eq h
  have hhead : commands[p]? = (strAt commands p ++ 0 :: l)[0]? := by
    rw [← hl, List.getElem?_drop, Nat.add_zero]
  rw [hhead]
  cases hs : strAt commands p with
  | nil => simp
  | cons b s =>
    have hzero : (0 : Byte) ∉ b :: s := hs ▸ zero_notMem_cstr _
    simpa using fun hb : b = 0 ↦ hzero (hb ▸ List.mem_cons_self)

/-- **`strtok`.** -/
theorem strtok_spec (h : 0 ∈ commands.drop save) :
    (words isDelim (strAt commands save) = [] ∧
      ∃ save', strtok commands save = some (none, commands, save') ∧
        0 ∈ commands.drop save' ∧ words isDelim (strAt commands save') = []) ∨
    ∃ p commands' save', strtok commands save = some (some p, commands', save') ∧
      Cuts commands save p commands' save' := by
  set s := strAt commands save with hs
  have hsplit : s = s.takeWhile isDelim ++ s.dropWhile isDelim :=
    List.takeWhile_append_dropWhile.symm
  have hwords := words_eq isDelim s
  have hskip : words isDelim s = words isDelim (s.dropWhile isDelim) := calc
    words isDelim s = words isDelim (s.takeWhile isDelim ++ s.dropWhile isDelim) := by rw [← hsplit]
    _ = _ := words_append_left fun x hx ↦ List.mem_takeWhile_imp hx
  obtain ⟨htoken, hzero⟩ := strAt_add h (hs.symm.trans hsplit)
  rw [strtok]
  simp only [← hs]
  generalize hp : save + (s.takeWhile isDelim).length = p at *
  have hle : save ≤ p := by omega
  generalize s.dropWhile isDelim = r at *
  have hsplit' : r = r.takeWhile (!isDelim ·) ++ r.dropWhile (!isDelim ·) :=
    List.takeWhile_append_dropWhile.symm
  rw [htoken]
  generalize hrest : r.dropWhile (!isDelim ·) = rest at *
  cases ht : r.takeWhile (!isDelim ·) with
  | nil =>
    rw [ht] at hwords
    refine Or.inl ⟨hwords, p, if_pos rfl, hzero, ?_⟩
    rw [htoken, ← hskip, hwords]
  | cons b t =>
    rw [ht] at hwords hsplit'
    have hne : p ≠ p + (b :: t).length := by
      rw [List.length_cons]
      omega
    obtain ⟨hlast, hzero'⟩ := strAt_add hzero (htoken.trans hsplit')
    rw [if_neg hne]
    cases rest with
    | nil =>
      -- the token reaches to the end of the string
      rw [if_pos ((getElem?_last hzero').mpr hlast)]
      have hstr : strAt commands p = b :: t := by rw [htoken, hsplit', List.append_nil]
      refine Or.inr ⟨p, commands, _, rfl, ?_, ?_, hle, ?_, hzero', rfl, fun _ _ _ ↦ rfl⟩
      · rw [hwords, hstr, hlast]
        rfl
      · rw [hstr]
        exact List.cons_ne_nil b t
      · rw [hstr]
    | cons d rest =>
      rw [if_neg fun h0 ↦ List.cons_ne_nil d rest (hlast.symm.trans ((getElem?_last hzero').mp h0)),
        store, if_pos (lt_length hzero')]
      obtain ⟨hstr, hnext, hterm⟩ := strAt_set hzero (htoken.trans hsplit')
      refine Or.inr ⟨p, _, _, rfl, ?_, ?_, hle, ?_, hterm, List.length_set, fun q hq hlt ↦ ?_⟩
      · rw [hwords, hstr, hnext]
        rfl
      · rw [hstr]
        exact List.cons_ne_nil b t
      · rw [hstr]
        exact Nat.le_succ _
      · exact strAt_set_of_lt hq (by rw [List.length_cons]; omega)

/-! ## The loop -/

/-- Pointers to strings that stand one behind the other, the last one at `p`. -/
structure Points (commands : List Byte) (ps : List ℕ) (p : ℕ) (args : List (List Byte)) : Prop where
  strings : ps.map (strAt commands) ++ [strAt commands p] = args
  before : ∀ q ∈ ps, q + (strAt commands q).length ≤ p
  terminated : 0 ∈ commands.drop p

variable {ps : List ℕ} {args : List (List Byte)} {argv rest : List (Option ℕ)} {n : ℕ}

/-- The next token. -/
theorem Points.next (h : Points commands ps p args) (hp : p + (strAt commands p).length ≤ save)
    (hcut : Cuts commands save q commands' save') :
    Points commands' (ps ++ [p]) q (args ++ [strAt commands' q]) := by
  have hlast : strAt commands' p = strAt commands p := hcut.frame p h.terminated hp
  have hfirst : ∀ r ∈ ps, strAt commands' r = strAt commands r := fun r hr ↦ by
    have hr' := h.before r hr
    exact hcut.frame r (mem_drop_of_le h.terminated (by omega)) (by omega)
  have hle := hcut.le
  refine ⟨?_, fun r hr ↦ ?_, mem_drop_of_le hcut.terminated (by have := hcut.behind; omega)⟩
  · rw [← h.strings, List.map_append, List.map_congr_left hfirst, List.map_singleton, hlast]
  · rcases List.mem_append.mp hr with hr | hr
    · have hr' := h.before r hr
      rw [hfirst r hr]
      omega
    · obtain rfl := List.mem_singleton.mp hr
      rw [hlast]
      omega

theorem set_argv (ps : List ℕ) (x y : Option ℕ) (rest : List (Option ℕ)) :
    (ps.map some ++ x :: rest).set ps.length y = ps.map some ++ y :: rest := by
  rw [List.set_append_right _ _ (by rw [List.length_map]), List.length_map, Nat.sub_self]
  rfl

theorem exists_room (hargv : argv = ps.map some ++ rest) (hlt : ps.length < argv.length) :
    ∃ x rest', rest = x :: rest' := by
  refine List.exists_cons_of_ne_nil fun hrest ↦ ?_
  rw [hargv, hrest, List.append_nil, List.length_map] at hlt
  exact lt_irrefl _ hlt

/-- The round of the last token. -/
theorem walk_last (h : Points commands ps p args) (hargv : argv = ps.map some ++ rest)
    (hnil : words isDelim (strAt commands save) = [])
    (hstrtok : strtok commands save = some (none, commands, save')) :
    (ps.length + (words isDelim (strAt commands save)).length < argv.length →
      ∃ commands' ps' p' rest', walk (n + 1) (some p) commands save argv ps.length =
          some (commands', (ps' ++ [p']).map some ++ rest', ps'.length + 1) ∧
        ((ps' ++ [p']).map some ++ rest').length = argv.length ∧
        Points commands' ps' p' (args ++ words isDelim (strAt commands save))) ∧
    (argv.length ≤ ps.length + (words isDelim (strAt commands save)).length →
      walk (n + 1) (some p) commands save argv ps.length = none) := by
  rw [hnil, List.length_nil, Nat.add_zero, List.append_nil, walk, store]
  refine ⟨fun hlt ↦ ?_, fun hle ↦ ?_⟩
  · obtain ⟨x, rest, rfl⟩ := exists_room hargv hlt
    rw [if_pos hlt, hargv, set_argv]
    simp only [Option.bind_eq_bind, Option.bind_some, hstrtok, if_true]
    refine ⟨commands, ps, p, rest, ?_, ?_, h⟩
    · rw [List.map_append, List.append_assoc]
      rfl
    · simp
  · rw [if_neg (not_lt.mpr hle)]
    rfl

/-- **The loop of `parse`.** It stores a pointer to every word, as long as `argv` has room. -/
theorem walk_spec (h : Points commands ps p args) (hp : p + (strAt commands p).length ≤ save)
    (hterm : 0 ∈ commands.drop save) (hargv : argv = ps.map some ++ rest)
    (hn : (words isDelim (strAt commands save)).length ≤ n) :
    (ps.length + (words isDelim (strAt commands save)).length < argv.length →
      ∃ commands' ps' p' rest', walk (n + 1) (some p) commands save argv ps.length =
          some (commands', (ps' ++ [p']).map some ++ rest', ps'.length + 1) ∧
        ((ps' ++ [p']).map some ++ rest').length = argv.length ∧
        Points commands' ps' p' (args ++ words isDelim (strAt commands save))) ∧
    (argv.length ≤ ps.length + (words isDelim (strAt commands save)).length →
      walk (n + 1) (some p) commands save argv ps.length = none) := by
  induction n generalizing commands ps p args save argv rest with
  | zero =>
    obtain ⟨hnil, save', hstrtok, -⟩ | ⟨q, commands', save', -, hcut⟩ := strtok_spec hterm
    · exact walk_last h hargv hnil hstrtok
    · rw [hcut.words] at hn
      cases hn
  | succ n ih =>
    obtain ⟨hnil, save', hstrtok, -⟩ | ⟨q, commands', save', hstrtok, hcut⟩ := strtok_spec hterm
    · exact walk_last h hargv hnil hstrtok
    · rw [hcut.words, List.length_cons] at hn ⊢
      rw [walk, store]
      by_cases hroom : ps.length < argv.length
      · obtain ⟨x, rest, rfl⟩ := exists_room hargv hroom
        rw [if_pos hroom, hargv, set_argv]
        simp only [Option.bind_eq_bind, Option.bind_some, hstrtok, reduceCtorEq, if_false]
        have hsnoc : ps.map some ++ some p :: rest = (ps ++ [p]).map some ++ rest := by
          rw [List.map_append, List.append_assoc]
          rfl
        have hlen : (ps.map some ++ x :: rest).length = ((ps ++ [p]).map some ++ rest).length := by
          simp
        have hlen' : (ps ++ [p]).length = ps.length + 1 := List.length_append
        obtain ⟨hsome, hnone⟩ := ih (h.next hp hcut) hcut.behind hcut.terminated hsnoc (by omega)
        rw [hsnoc, hlen'] at hsome hnone
        rw [hsnoc, hlen]
        refine ⟨fun hlt ↦ ?_, fun hle ↦ hnone (by omega)⟩
        obtain ⟨commands'', ps', p', rest', heq, hsize, hpoints⟩ := hsome (by omega)
        refine ⟨commands'', ps', p', rest', heq, hsize, ?_⟩
        rwa [List.append_assoc, List.singleton_append] at hpoints
      · rw [if_neg hroom]
        exact ⟨fun hlt ↦ absurd hlt (by omega), fun _ ↦ rfl⟩

/-! ## The whole of `parse` -/

/-- `parse` has returned these arguments: `argv` points to them, and NULL follows. -/
structure Yields (r : Parsed) (args : List (List Byte)) : Prop where
  ret : r.ret = args.length
  argc : r.argc = args.length
  argv : ∃ (ps : List ℕ) (rest : List (Option ℕ)), r.argv = ps.map some ++ none :: rest ∧
    ps.map (strAt r.commands) = args

variable {argc background : ℤ}

/-- A line of white space only. -/
theorem parse_blank (h : 0 ∈ commands) (hargv : 0 < argv.length)
    (hnil : words isDelim (cstr commands) = []) :
    parse commands argc argv background =
      some ⟨-1, commands, argc, argv.set 0 none, background⟩ := by
  have hstart : 0 ∈ commands.drop 0 := h
  obtain ⟨-, save, hstrtok, hterm, hnil'⟩ | ⟨p, commands', save, -, hcut⟩ := strtok_spec hstart
  · obtain ⟨-, save', hstrtok', -⟩ | ⟨p, commands', save', -, hcut⟩ := strtok_spec hterm
    · obtain ⟨n, hn⟩ := Nat.exists_eq_add_one.mpr (List.length_pos_of_mem h)
      have hwalk : walk commands.length none commands save argv 0 =
          some (commands, argv.set 0 none, 1) := by
        rw [hn, walk, store, if_pos hargv]
        simp only [Option.bind_eq_bind, Option.bind_some, hstrtok']
        rfl
      simp only [parse, hstrtok, Option.bind_eq_bind, Option.bind_some, hwalk]
      exact if_pos (List.getElem?_set_self hargv)
    · exact absurd (hnil'.symm.trans hcut.words) (List.cons_ne_nil _ _).symm
  · exact absurd (hnil.symm.trans hcut.words) (List.cons_ne_nil _ _).symm

/-- The last round of `parse` on a line with words: what `strtok` and the loop have done. -/
theorem walk_line (argv : List (Option ℕ)) (h : 0 ∈ commands)
    (hne : words isDelim (cstr commands) ≠ []) :
    ∃ p commands' save, strtok commands 0 = some (some p, commands', save) ∧
    ((words isDelim (cstr commands)).length ≤ argv.length →
      ∃ commands'' ps p' rest, walk commands'.length (some p) commands' save argv 0 =
          some (commands'', (ps ++ [p']).map some ++ rest, ps.length + 1) ∧
        ((ps ++ [p']).map some ++ rest).length = argv.length ∧
        Points commands'' ps p' (words isDelim (cstr commands))) ∧
    (argv.length < (words isDelim (cstr commands)).length →
      walk commands'.length (some p) commands' save argv 0 = none) := by
  have hstart : 0 ∈ commands.drop 0 := h
  obtain ⟨hnil, -⟩ | ⟨p, commands', save, hstrtok, hcut⟩ := strtok_spec hstart
  · exact absurd hnil hne
  refine ⟨p, commands', save, hstrtok, ?_⟩
  have hwords : words isDelim (cstr commands) = _ := hcut.words
  have hpoints : Points commands' [] p [strAt commands' p] :=
    ⟨rfl, nofun, mem_drop_of_le hcut.terminated (by have := hcut.behind; omega)⟩
  obtain ⟨n, hn⟩ := Nat.exists_eq_add_one.mpr (List.length_pos_of_mem h)
  have hlen : (words isDelim (cstr commands)).length ≤ n := by
    obtain ⟨l, hl⟩ := exists_drop_eq hstart
    have hle := length_words_le isDelim (cstr commands)
    have hcount := congrArg List.length hl
    rw [List.drop_zero, List.length_append, List.length_cons] at hcount
    change commands.length = (cstr commands).length + _ at hcount
    omega
  rw [hwords, List.length_cons] at hlen ⊢
  have hargv : argv = ([] : List ℕ).map some ++ argv := rfl
  obtain ⟨hsome, hnone⟩ := walk_spec (n := n) hpoints hcut.behind hcut.terminated hargv (by omega)
  rw [hcut.length, hn]
  rw [List.length_nil, Nat.zero_add] at hsome hnone
  exact ⟨fun hle ↦ hsome (by omega), fun hlt ↦ hnone (by omega)⟩

variable {c : Byte} {t : List Byte} {init : List (List Byte)}

/-- The bytes of the last argument, and the NUL behind them. -/
theorem getElem?_arg {s : List Byte} (h : 0 ∈ commands.drop p) (hs : strAt commands p = s) (k : ℕ)
    (hk : k ≤ s.length) : commands[p + k]? = (s ++ [0])[k]? := by
  obtain ⟨l, hl⟩ := exists_drop_eq h
  rw [← List.getElem?_drop, hl, hs, List.append_cons]
  exact List.getElem?_append_left (by rw [List.length_append, List.length_singleton]; omega)

/-- The test for an argument that is `&`. -/
theorem is_ampersand_iff (h : 0 ∈ commands.drop p)
    (hs : strAt commands p = t ++ [c]) :
    commands[p]? = some ampersand ∧ commands[p + 1]? = some 0 ↔ t = [] ∧ c = ampersand := by
  have hfirst := getElem?_arg h hs 0 (Nat.zero_le _)
  have hsecond := getElem?_arg h hs 1 (by simp)
  have hzero : (0 : Byte) ∉ t ++ [c] := hs ▸ zero_notMem_cstr _
  rw [Nat.add_zero] at hfirst
  rw [hfirst, hsecond]
  rcases t with _ | ⟨b, t⟩
  · simp
  · have hne : ∀ x ∈ t ++ [c], x ≠ 0 := fun x hx h0 ↦ hzero (h0 ▸ List.mem_cons_of_mem b hx)
    refine iff_of_false (fun hand ↦ ?_) fun hand ↦ List.cons_ne_nil b t hand.1
    have hnext := hand.2
    cases t with
    | nil => exact hne c List.mem_cons_self (by simpa using hnext)
    | cons b' t => exact hne b' List.mem_cons_self (by simpa using hnext)

/-- **`parse` behind its loop.** -/
theorem finish_spec {x : Option ℕ} (h : Points commands ps p (init ++ [t ++ [c]]))
    (hargv : argv = (ps ++ [p]).map some ++ x :: rest) :
    ∃ r, finish commands argc argv (ps.length + 1) background = some r ∧
      Yields r (if c = ampersand then init ++ (if t = [] then [] else [t])
        else init ++ [t ++ [c]]) ∧
      r.background = if c = ampersand then 1 else background := by
  obtain ⟨hinit, hlast⟩ := List.append_inj' h.strings rfl
  have harg : strAt commands p = t ++ [c] := List.singleton_inj.mp hlast
  have hcount : ps.length = init.length := by rw [← hinit, List.length_map]
  have hlen : ((ps ++ [p]).map some).length = ps.length + 1 := by simp
  have hset : argv.set (ps.length + 1) none = (ps ++ [p]).map some ++ none :: rest := by
    rw [hargv, ← hlen, List.set_append_right _ _ le_rfl, Nat.sub_self]
    rfl
  have hroom : ps.length + 1 < argv.length := by
    rw [hargv, List.length_append, hlen, List.length_cons]
    omega
  have hfirst : argv[0]? ≠ some none := by
    rw [hargv]
    cases ps with
    | nil => exact fun h0 ↦ nomatch h0
    | cons q ps => exact fun h0 ↦ nomatch h0
  have hget : ((ps ++ [p]).map some ++ none :: rest)[ps.length]? = some (some p) := by
    rw [List.getElem?_append_left (by rw [hlen]; exact Nat.lt_succ_self _), List.getElem?_map,
      List.getElem?_concat_length]
    rfl
  rw [finish, if_neg hfirst, store, if_pos hroom, hset]
  simp only [Option.bind_eq_bind, Option.bind_some, Nat.add_sub_cancel, hget, Option.join_some,
    Option.getD_some, is_ampersand_iff h.terminated harg, harg, List.length_append,
    List.length_singleton]
  have hfull : (ps ++ [p]).map (strAt commands) = init ++ [t ++ [c]] := by
    rw [List.map_append]
    exact h.strings
  by_cases hown : t = [] ∧ c = ampersand
  · -- the `&` is a word of its own, and NULL takes the place of its pointer
    obtain ⟨rfl, rfl⟩ := hown
    have hcut : ((ps ++ [p]).map some ++ none :: rest).set ps.length none =
        ps.map some ++ none :: none :: rest := by
      rw [List.map_append, List.append_assoc]
      exact set_argv ps (some p) none (none :: rest)
    rw [if_pos ⟨rfl, rfl⟩, store, if_pos (by rw [List.length_append, hlen]; omega), hcut,
      if_pos rfl, if_pos rfl, if_pos rfl, List.append_nil]
    have hi : ((ps.length + 1 : ℕ) : ℤ) - 1 = init.length := by omega
    exact ⟨_, rfl, ⟨hi, hi, ps, none :: rest, rfl, hinit⟩, rfl⟩
  rw [if_neg hown]
  have hsub : p + (t.length + 1) - 1 = p + t.length := by omega
  have hc : commands[p + t.length]? = some c := by
    rw [getElem?_arg h.terminated harg t.length (by simp)]
    simp
  rw [hsub, hc]
  simp only [Option.some.injEq]
  by_cases hamp : c = ampersand
  · -- the `&` ends the last argument, and a NUL takes its place
    have ht : t ≠ [] := fun ht ↦ hown ⟨ht, hamp⟩
    have hpos := List.length_pos_iff.mpr ht
    have hlt : p + t.length < commands.length := (List.getElem?_eq_some_iff.mp hc).1
    obtain ⟨hcut, -⟩ := strAt_set h.terminated (b := c) (t := []) harg
    have hkeep : ∀ q ∈ ps, strAt (commands.set (p + t.length) 0) q = strAt commands q :=
      fun q hq ↦ by
        have hq' := h.before q hq
        exact strAt_set_of_lt (mem_drop_of_le h.terminated (by omega)) (by omega)
    rw [if_pos hamp, if_pos hamp, if_pos hamp, if_neg ht, store, if_pos hlt]
    refine ⟨_, rfl, ⟨?_, ?_, ps ++ [p], rest, rfl, ?_⟩, rfl⟩
    · simp [hcount]
    · simp [hcount]
    · rw [List.map_append, List.map_congr_left hkeep, hinit, List.map_singleton, hcut]
  · rw [if_neg hamp, if_neg hamp, if_neg hamp]
    refine ⟨_, rfl, ⟨?_, ?_, ps ++ [p], rest, rfl, hfull⟩, rfl⟩
    · simp [hcount]
    · simp [hcount]

/-- `argv` has no room for the NULL. -/
theorem finish_full (hargv : argv = (ps ++ [p]).map some) :
    finish commands argc argv (ps.length + 1) background = none := by
  have hlen : argv.length = ps.length + 1 := by
    rw [hargv]
    simp
  have hfirst : argv[0]? ≠ some none := by
    rw [hargv]
    cases ps with
    | nil => exact fun h0 ↦ nomatch h0
    | cons q ps => exact fun h0 ↦ nomatch h0
  rw [finish, if_neg hfirst, store, if_neg (by omega)]
  rfl

/-- **`parse`** on a line with words: all of them and the NULL must go into `argv`. -/
theorem parse_spec (argc : ℤ) (argv : List (Option ℕ)) (background : ℤ) (h : 0 ∈ commands)
    (hne : words isDelim (cstr commands) ≠ []) :
    ((words isDelim (cstr commands)).length < argv.length →
      ∃ r, parse commands argc argv background = some r ∧
        Yields r (words isDelim (withoutAmpersand (cstr commands))) ∧
        r.background = if lastChar (cstr commands) = some ampersand then 1 else background) ∧
    (argv.length ≤ (words isDelim (cstr commands)).length →
      parse commands argc argv background = none) := by
  obtain ⟨p, commands', save, hstrtok, hsome, hnone⟩ := walk_line argv h hne
  rw [parse, hstrtok]
  simp only [Option.bind_eq_bind, Option.bind_some]
  by_cases hlt : argv.length < (words isDelim (cstr commands)).length
  · rw [hnone hlt]
    exact ⟨fun h' ↦ absurd h' (by omega), fun _ ↦ rfl⟩
  obtain ⟨commands'', ps, p', rest, hwalk, hsize, hpoints⟩ := hsome (not_lt.mp hlt)
  have hcount : (words isDelim (cstr commands)).length = ps.length + 1 := by
    rw [← hpoints.strings]
    simp
  have hlen : ((ps ++ [p']).map some ++ rest).length = ps.length + 1 + rest.length := by
    rw [List.length_append, List.length_map, List.length_append, List.length_singleton]
  rw [hwalk]
  simp only [Option.bind_some]
  rcases rest with _ | ⟨x, rest⟩
  · rw [List.append_nil] at hsize ⊢
    rw [List.append_nil, List.length_nil, Nat.add_zero] at hlen
    exact ⟨fun h' ↦ absurd h' (by omega), fun _ ↦ finish_full rfl⟩
  rw [List.length_cons] at hlen
  refine ⟨fun _ ↦ ?_, fun hle ↦ absurd hle (by omega)⟩
  obtain ⟨hnil, -⟩ | ⟨init, t, c, hwords, hlast, hamp⟩ := lastChar_cases (cstr commands)
  · exact absurd hnil hne
  rw [hwords] at hpoints
  obtain ⟨r, hr, hyields, hback⟩ := finish_spec hpoints rfl
  refine ⟨r, hr, ?_, ?_⟩
  · by_cases hc : c = ampersand
    · rw [hamp hc]
      rwa [if_pos hc] at hyields
    · rw [if_neg hc, ← hwords] at hyields
      rwa [withoutAmpersand, hlast, if_neg fun h' ↦ hc (Option.some.inj h')]
  · rw [hback, hlast]
    simp only [Option.some.injEq]

/-- **`parse`** on any line with fewer than `ARGC` tokens. -/
theorem parse_line (commands : List Byte) (argc : ℤ) (argv : List (Option ℕ)) (h : 0 ∈ commands)
    (hargv : argv.length = argcMax)
    (hcount : (words isDelim (cstr commands)).length < argcMax) :
    ∃ r, parse commands argc argv 0 = some r ∧
      (r.background = 1 ↔ lastChar (cstr commands) = some ampersand) ∧
      (words isDelim (withoutAmpersand (cstr commands)) = [] → r.ret ≤ 0) ∧
      (words isDelim (withoutAmpersand (cstr commands)) ≠ [] →
        Yields r (words isDelim (withoutAmpersand (cstr commands)))) := by
  by_cases hne : words isDelim (cstr commands) = []
  · refine ⟨_, parse_blank h (by rw [hargv]; decide) hne, ?_, fun _ ↦ ?_, fun hargs ↦ ?_⟩
    · obtain ⟨-, hlast⟩ | ⟨init, t, c, hwords, -⟩ := lastChar_cases (cstr commands)
      · rw [hlast]
        exact iff_of_false (show ¬(0 : ℤ) = 1 by decide) nofun
      · exact absurd (hne.symm.trans hwords).symm (by simp)
    · change (-1 : ℤ) ≤ 0
      decide
    · obtain ⟨-, hlast⟩ | ⟨init, t, c, hwords, -⟩ := lastChar_cases (cstr commands)
      · rw [withoutAmpersand, hlast, if_neg nofun] at hargs
        exact absurd hne hargs
      · exact absurd (hne.symm.trans hwords).symm (by simp)
  · obtain ⟨r, hr, hyields, hback⟩ := (parse_spec _ _ _ h hne).1 (by rw [hargv]; exact hcount)
    refine ⟨r, hr, ?_, fun hnil ↦ ?_, fun _ ↦ hyields⟩
    · rw [hback]
      split_ifs with hlast
      · exact iff_of_true rfl hlast
      · exact iff_of_false (by decide) hlast
    · rw [hyields.ret, hnil]
      exact le_rfl

/-- `a b&` -/
theorem parse_line_two : ∃ r, parse [0x61, 0x20, 0x62, 0x26, newline, 0] 7
      (List.replicate argcMax none) 0 = some r ∧ r.background = 1 ∧
    Yields r [[0x61], [0x62]] := by
  have hlast : lastChar (cstr [0x61, 0x20, 0x62, 0x26, newline, 0]) = some ampersand := by decide
  have hargs : words isDelim (withoutAmpersand (cstr [0x61, 0x20, 0x62, 0x26, newline, 0])) =
      [[0x61], [0x62]] := by decide
  obtain ⟨r, hr, hback, -, hyields⟩ := parse_line [0x61, 0x20, 0x62, 0x26, newline, 0] 7
    (List.replicate argcMax none) (by decide) List.length_replicate (by decide)
  rw [hargs] at hyields
  exact ⟨r, hr, hback.mpr hlast, hyields (List.cons_ne_nil _ _)⟩

end Arrays

/-! ## The shell's `parse` -/

/-- The tokens of a string are its words. -/
theorem tokens_eq {n : ℕ} {s : List Byte} (hn : s.length ≤ n) : tokens n s = words isDelim s := by
  induction n generalizing s with
  | zero =>
    obtain rfl := List.length_eq_zero_iff.mp (Nat.le_zero.mp hn)
    rfl
  | succ n ih =>
    rw [tokens, strtok, words_eq]
    cases hrest : s.dropWhile isDelim with
    | nil => rfl
    | cons b r =>
      have hb : isDelim b = false := of_dropWhile_eq_cons hrest
      have hcons : (b :: r).takeWhile (!isDelim ·) = b :: r.takeWhile (!isDelim ·) :=
        List.takeWhile_cons_of_pos (by rw [hb]; rfl)
      have hle : ((b :: r).dropWhile (!isDelim ·)).tail.length ≤ n := by
        have hrest' := List.length_dropWhile_le isDelim s
        have hback := List.length_dropWhile_le (!isDelim ·) r
        rw [hrest, List.length_cons] at hrest'
        rw [List.dropWhile_cons_of_pos (by rw [hb]; rfl), List.length_tail]
        omega
      simp only [hcons, ih hle]

/-- `parse` by the grammar. -/
theorem parse_eq (commands : List Byte) :
    parse commands =
      if words isDelim (cstr commands) = [] then none
      else some (words isDelim (withoutAmpersand (cstr commands)),
        decide (lastChar (cstr commands) = some ampersand)) := by
  rw [parse, tokens_eq le_rfl]
  obtain ⟨hnil, -⟩ | ⟨init, t, c, hwords, hlast, hamp⟩ := lastChar_cases (cstr commands)
  · rw [hnil]
    rfl
  · have hne : init ++ [t ++ [c]] ≠ [] := List.concat_ne_nil _ _
    rw [hlast, hwords, if_neg hne, List.getLast?_concat]
    simp only [List.dropLast_concat, List.getLast?_concat, Option.some.injEq]
    by_cases hc : c = ampersand
    · rw [hamp hc, hc]
      by_cases ht : t = []
      · rw [ht, if_pos rfl, if_pos rfl, List.append_nil]
        rfl
      · have hown : t ++ [ampersand] ≠ [ampersand] := fun h ↦
          ht (List.append_left_eq_self.mp h)
        rw [if_neg hown, if_pos rfl, if_neg ht]
        rfl
    · have hown : t ++ [c] ≠ [] ++ [ampersand] := fun h ↦
        hc (List.singleton_inj.mp (List.append_inj' h rfl).2)
      rw [List.nil_append] at hown
      rw [if_neg hown, if_neg hc, decide_eq_false hc, withoutAmpersand, hlast,
        if_neg fun h ↦ hc (Option.some.inj h), hwords]

/-- The shell runs what `parse` leaves in its arrays. -/
theorem parse_refines {commands : List Byte} {args : List (List Byte)} {background : Bool}
    (hparse : parse commands = some (args, background)) (h : 0 ∈ commands) (argc : ℤ)
    {argv : List (Option ℕ)} (hroom : (words isDelim (cstr commands)).length < argv.length) :
    ∃ r, Arrays.parse commands argc argv 0 = some r ∧ Arrays.Yields r args ∧
      (r.background = 1 ↔ background = true) := by
  rw [parse_eq] at hparse
  obtain ⟨hne, heq⟩ := Option.ite_none_left_eq_some.mp hparse
  obtain ⟨rfl, rfl⟩ := Prod.mk.inj (Option.some.inj heq)
  obtain ⟨r, hr, hyields, hback⟩ := (Arrays.parse_spec argc argv 0 h hne).1 hroom
  refine ⟨r, hr, hyields, ?_⟩
  rw [hback, decide_eq_true_eq]
  split_ifs with hlast
  · exact iff_of_true rfl hlast
  · exact iff_of_false (by decide) hlast

end CS537.Mysh
