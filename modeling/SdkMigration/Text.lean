import Mathlib.Data.List.Infix
import Mathlib.Data.List.Basic

/-!
# Python strings as lists of characters

The migration scripts read every file into one Python `str` and edit it with a handful of
`str` methods.  We model a `str` as a `List Char` and each method the scripts call as a
function on lists, under the method's name:

* `isSpace` is `str.isspace` on one character, the predicate behind both `str.rstrip()`
  and the regular-expression class `\s`;
* `splitLines` and `joinLines` are `contents.split('\n')` and `'\n'.join(lines)`;
* `isImportLine` is the scripts' test `line[:6] == "import"`.

Python's `in` on two strings is `List.IsInfix`, and `s.endswith(t)` is `List.isSuffixOf`.
-/

namespace SdkMigration

/-- Python's `str.isspace` on one character: the characters of Unicode bidirectional class
`WS`, `B` or `S`, or of general category `Zs`. -/
def isSpace (c : Char) : Bool :=
  let n := c.toNat
  (9 ≤ n && n ≤ 13) || (28 ≤ n && n ≤ 32) || n == 0x85 || n == 0xA0 || n == 0x1680 ||
    (0x2000 ≤ n && n ≤ 0x200A) || n == 0x2028 || n == 0x2029 || n == 0x202F ||
    n == 0x205F || n == 0x3000

/-- `s.rstrip()`: drop the trailing characters for which `isspace` holds. -/
def rstrip (s : List Char) : List Char := (s.reverse.dropWhile isSpace).reverse

/-- `contents.split('\n')`. -/
def splitLines (s : List Char) : List (List Char) := s.splitOn '\n'

/-- `'\n'.join(lines)`. -/
def joinLines (ls : List (List Char)) : List Char := ['\n'].intercalate ls

/-- The scripts' test `line[:6] == "import"` for an import line. -/
def isImportLine (line : List Char) : Bool := line.take 6 == "import".toList

/-- `lines.insert(i, x)`: before position `i`, or at the end when `i` is past it. -/
def listInsert {α : Type} (i : Nat) (x : α) (l : List α) : List α := l.take i ++ x :: l.drop i

/-- `s.split(sep)[0]` for a nonempty `sep`: the text before the first occurrence of `sep`. -/
def beforeFirst (sep : List Char) : List Char → List Char
  | [] => []
  | c :: s => if sep.isPrefixOf (c :: s) then [] else c :: beforeFirst sep s

/-! ## `rstrip` -/

/-- `rstrip` keeps a prefix of its argument. -/
theorem rstrip_prefix_self (s : List Char) : rstrip s <+: s :=
  List.reverse_suffix.mp (by simpa [rstrip] using List.dropWhile_suffix isSpace (l := s.reverse))

theorem rstrip_subset (s : List Char) : rstrip s ⊆ s := (rstrip_prefix_self s).subset

/-- `rstrip` keeps what runs up to a character other than a blank. -/
theorem prefix_rstrip_of_last {w : List Char} {c : Char} (hc : isSpace c = false)
    (v : List Char) : w ++ [c] <+: rstrip (w ++ [c] ++ v) := by
  rw [rstrip, List.reverse_append, List.dropWhile_append]
  have hd : (w ++ [c]).reverse.dropWhile isSpace = (w ++ [c]).reverse := by
    rw [List.reverse_append, List.reverse_singleton, List.singleton_append,
      List.dropWhile_cons_of_neg (by simp [hc])]
  split
  · rw [hd, List.reverse_reverse]
  · rw [List.reverse_append, List.reverse_reverse]
    exact List.prefix_append _ _

theorem isImportLine_iff (l : List Char) : isImportLine l = true ↔ "import".toList <+: l := by
  rw [isImportLine, beq_iff_eq, List.prefix_iff_eq_take, eq_comm]
  rfl

/-- Trailing blanks do not make or unmake an import line. -/
theorem isImportLine_rstrip (l : List Char) : isImportLine (rstrip l) = isImportLine l := by
  refine Bool.eq_iff_iff.mpr ⟨fun h => (isImportLine_iff l).mpr
    (((isImportLine_iff _).mp h).trans (rstrip_prefix_self l)), fun h => ?_⟩
  obtain ⟨v, rfl⟩ := (isImportLine_iff l).mp h
  have hw : "impor".toList ++ ['t'] <+: rstrip ("impor".toList ++ ['t'] ++ v) :=
    prefix_rstrip_of_last (by decide) v
  exact (isImportLine_iff _).mpr hw

/-! ## Lines -/

@[simp] theorem joinLines_nil : joinLines [] = [] := rfl

@[simp] theorem joinLines_singleton (l : List Char) : joinLines [l] = l := by
  simp [joinLines, List.intercalate]

theorem joinLines_cons_cons (l l' : List Char) (ls : List (List Char)) :
    joinLines (l :: l' :: ls) = l ++ '\n' :: joinLines (l' :: ls) := by
  simp [joinLines, List.intercalate]

@[simp] theorem joinLines_splitLines (s : List Char) : joinLines (splitLines s) = s :=
  List.intercalate_splitOn s '\n'

/-- No piece of a split holds the separator. -/
theorem not_mem_of_mem_splitOn {a : Char} : ∀ {s l : List Char}, l ∈ s.splitOn a → a ∉ l
  | [], l, h => by simp_all
  | c :: s, l, h => by
    have ih := @not_mem_of_mem_splitOn a s
    simp only [List.splitOn, List.splitOnP_cons, beq_iff_eq] at h ih
    split at h
    · rcases List.mem_cons.mp h with rfl | h
      · simp
      · exact ih h
    · next hc =>
      obtain ⟨hd, tl, hs⟩ := List.exists_cons_of_ne_nil (List.splitOnP_ne_nil (· == a) s)
      rw [hs, List.modifyHead_cons] at h
      rcases List.mem_cons.mp h with rfl | h
      · have := ih (l := hd) (by rw [hs]; exact List.mem_cons_self _ _)
        simp only [List.mem_cons, not_or]
        exact ⟨fun h => hc h.symm, this⟩
      · exact ih (by rw [hs]; exact List.mem_cons_of_mem _ h)

/-- Every piece of an `intercalate` occurs in it. -/
theorem infix_intercalate (sep : List Char) :
    ∀ {L : List (List Char)} {l : List Char}, l ∈ L → l <:+: sep.intercalate L
  | [x], l, h => by rw [List.mem_singleton.mp h]; simp [List.intercalate]
  | x :: y :: L, l, h => by
    have e : sep.intercalate (x :: y :: L) = x ++ (sep ++ sep.intercalate (y :: L)) := by
      simp [List.intercalate]
    rw [e]
    rcases List.mem_cons.mp h with rfl | h
    · exact List.infix_append [] _ _
    · exact (infix_intercalate sep h).trans
        ((List.suffix_append sep _).isInfix.trans (List.suffix_append x _).isInfix)

/-- Every piece of a split occurs in the text. -/
theorem infix_of_mem_splitOn {a : Char} {s l : List Char} (h : l ∈ s.splitOn a) : l <:+: s := by
  rw [← List.intercalate_splitOn s a]
  exact infix_intercalate [a] h

theorem newline_not_mem_of_mem_splitLines {s l : List Char} (h : l ∈ splitLines s) :
    '\n' ∉ l :=
  not_mem_of_mem_splitOn h

@[simp] theorem splitLines_ne_nil (s : List Char) : splitLines s ≠ [] :=
  List.splitOnP_ne_nil _ s

theorem beforeFirst_prefix (sep : List Char) : ∀ s : List Char, beforeFirst sep s <+: s
  | [] => List.prefix_refl []
  | c :: s => by
    unfold beforeFirst
    split
    · exact List.nil_prefix
    · exact List.cons_prefix_cons.mpr ⟨rfl, beforeFirst_prefix sep s⟩

/-- The text before the first `sep`, when no `sep` starts before the one after `x`. -/
theorem beforeFirst_append {sep : List Char} (y : List Char) :
    ∀ {x : List Char}, ¬sep <:+: x ++ sep.dropLast → beforeFirst sep (x ++ sep ++ y) = x
  | [], h => by
    obtain ⟨a, s, rfl⟩ := List.exists_cons_of_ne_nil fun e => h (e ▸ List.nil_infix)
    simp [beforeFirst, List.isPrefixOf_iff_prefix]
  | c :: x, h => by
    have hne : sep ≠ [] := fun e => h (e ▸ List.nil_infix)
    have hpre : sep.isPrefixOf (c :: x ++ sep ++ y) = false := by
      refine Bool.eq_false_iff.mpr fun hp => h ?_
      have hp' := List.isPrefixOf_iff_prefix.mp hp
      have hsplit : c :: x ++ sep ++ y = (c :: x ++ sep.dropLast) ++ (sep.drop (sep.length - 1) ++ y) := by
        rw [List.dropLast_eq_take, List.append_assoc, List.append_assoc, ← List.append_assoc (sep.take _),
          List.take_append_drop]
      rw [hsplit] at hp'
      exact (List.prefix_of_prefix_length_le hp' (List.prefix_append _ _)
        (by simp [List.length_dropLast]; have := List.length_pos.mpr hne; omega)).isInfix
    rw [List.cons_append, List.cons_append, beforeFirst, ← List.cons_append, ← List.cons_append, hpre]
    simp only [Bool.false_eq_true, if_false, List.cons.injEq, true_and]
    exact beforeFirst_append y fun hx => h (List.infix_cons hx)

/-- The last piece of a split ends with the text after the last separator. -/
theorem getLast?_splitOnP_append {α : Type} {p : α → Bool} {y : List α} (hy : ∀ b ∈ y, ¬p b) :
    ∀ x : List α, ∃ u, ((x ++ y).splitOnP p).getLast? = some (u ++ y)
  | [] => ⟨[], by rw [List.nil_append, List.splitOnP_eq_single _ _ hy]; rfl⟩
  | c :: x => by
    obtain ⟨u, hu⟩ := getLast?_splitOnP_append hy x
    rw [List.cons_append, List.splitOnP_cons]
    split
    · exact ⟨u, by rw [List.getLast?_cons, hu]; rfl⟩
    · cases h : (x ++ y).splitOnP p with
      | nil => exact absurd h (List.splitOnP_ne_nil _ _)
      | cons s t =>
        rw [h] at hu
        cases t with
        | nil => exact ⟨c :: u, by simp_all⟩
        | cons s' t' => exact ⟨u, by simpa [List.modifyHead] using hu⟩

/-- Splitting at a separator between two texts splits each of them. -/
theorem splitOnP_append_cons {α : Type} {p : α → Bool} {c : α} (hc : p c) :
    ∀ x y : List α, (x ++ c :: y).splitOnP p = x.splitOnP p ++ y.splitOnP p
  | [], y => by simp [hc]
  | a :: x, y => by
    rw [List.cons_append, List.splitOnP_cons, List.splitOnP_cons, splitOnP_append_cons hc x y]
    split
    · rfl
    · obtain ⟨s, l, h⟩ := List.exists_cons_of_ne_nil (List.splitOnP_ne_nil p x)
      rw [h]
      rfl

/-- A filter keeps the last element of a list where that element passes. -/
theorem getLast?_filter_of_getLast? {α : Type} {q : α → Bool} {l : List α} {v : α}
    (h : l.getLast? = some v) (hv : q v) : (l.filter q).getLast? = some v := by
  rw [← List.dropLast_append_getLast? v h, List.filter_append, List.filter_singleton, hv, cond_true]
  exact List.getLast?_concat _

/-- Splitting recovers the lines that were joined, when none of them holds a newline. -/
theorem splitLines_joinLines {ls : List (List Char)} (h : ∀ l ∈ ls, '\n' ∉ l) (hne : ls ≠ []) :
    splitLines (joinLines ls) = ls :=
  List.splitOn_intercalate ls '\n' h hne

/-! ## Words between separators -/

section Separators

variable {α : Type} {c : α} {w s t : List α}

/-- A prefix of `s ++ c :: t` without `c` is a prefix of `s`. -/
theorem prefix_of_prefix_append_cons (h : w <+: s ++ c :: t) (hc : c ∉ w) : w <+: s := by
  have hs : s ++ [c] <+: s ++ c :: t := ⟨t, by simp⟩
  rcases List.prefix_or_prefix_of_prefix h hs with h' | h'
  · rcases List.prefix_concat_iff.mp h' with rfl | h'
    · simp at hc
    · exact h'
  · exact absurd (h'.subset (by simp)) hc

/-- Two texts that each run up to their first `c` agree up to it. -/
theorem eq_of_prefix_append_cons (h : w ++ [c] <+: s ++ c :: t) (hw : c ∉ w) (hs : c ∉ s) :
    w = s := by
  have hs' : s ++ [c] <+: s ++ c :: t := ⟨t, by simp⟩
  rcases List.prefix_or_prefix_of_prefix h hs' with h' | h'
  · rcases List.prefix_concat_iff.mp h' with e | h'
    · exact List.append_cancel_right e
    · exact absurd (h'.subset (by simp)) hs
  · rcases List.prefix_concat_iff.mp h' with e | h'
    · exact (List.append_cancel_right e).symm
    · exact absurd (h'.subset (by simp)) hw

/-- A text that begins with `c` and occurs in `w ++ z`, where `w` lacks `c`, occurs in `z`. -/
theorem cons_infix_of_infix_append {q z : List α} (hc : c ∉ w) (h : c :: q <:+: w ++ z) :
    c :: q <:+: z := by
  induction w with
  | nil => exact h
  | cons d w ih =>
    rcases List.infix_cons_iff.mp h with h | h
    · obtain ⟨rfl, -⟩ := List.cons_prefix_cons.mp h
      simp at hc
    · exact ih (fun hw => hc (List.mem_cons_of_mem d hw)) h

/-- A text without `c` that occurs in `s ++ c :: t` occurs in `s` or in `t`. -/
theorem infix_append_cons_of_not_mem (h : w <:+: s ++ c :: t) (hc : c ∉ w) :
    w <:+: s ∨ w <:+: t := by
  induction s with
  | nil =>
    rcases List.infix_cons_iff.mp h with h | h
    · exact .inl (prefix_of_prefix_append_cons (s := []) h hc).isInfix
    · exact .inr h
  | cons d s ih =>
    rcases List.infix_cons_iff.mp h with h | h
    · exact .inl (prefix_of_prefix_append_cons h hc).isInfix
    · exact (ih h).imp List.infix_cons id

/-- A word between two `c`s that occurs in another such word, which lacks `c`, is that word. -/
theorem eq_of_infix_cons_append {v : List α} (hv : c ∉ v) (h : c :: (w ++ [c]) <:+: c :: (v ++ [c])) :
    w = v := by
  rcases List.infix_cons_iff.mp h with h | h
  · rcases List.prefix_concat_iff.mp ((List.prefix_cons_inj c).mp h) with e | h
    · exact List.append_cancel_right e
    · exact absurd (h.subset (by simp)) hv
  · have := (cons_infix_of_infix_append hv h).length_le
    simp at this

/-- A word without `c` that stands between two `c`s is a piece of the split on `c`, and not
the first. -/
theorem mem_tail_splitOn [DecidableEq α] {k e : List α} (hk : c ∉ k) :
    ∀ s : List α, k ∈ ((s ++ c :: (k ++ c :: e)).splitOn c).tail
  | [] => by
    simp only [List.nil_append, List.splitOn, List.splitOnP_cons, beq_self_eq_true, if_true,
      List.tail_cons]
    rw [List.splitOnP_first (· == c) k (fun x hx h => hk (by simp only [beq_iff_eq] at h; exact h ▸ hx)) c (beq_self_eq_true c)]
    exact List.mem_cons_self _ _
  | d :: s => by
    have ih := mem_tail_splitOn (e := e) hk s
    simp only [List.splitOn, List.cons_append, List.splitOnP_cons] at ih ⊢
    split
    · exact List.mem_of_mem_tail ih
    · rwa [List.tail_modifyHead]

/-- A word without `c` that occurs between two `c`s is a piece of the split on `c`. -/
theorem mem_splitOn_of_between [DecidableEq α] {k u : List α} (hk : c ∉ k)
    (h : c :: (k ++ [c]) <:+: u) : k ∈ u.splitOn c := by
  obtain ⟨s, e, rfl⟩ := h
  have := List.mem_of_mem_tail (mem_tail_splitOn (e := e) hk s)
  simpa using this

/-- A text that occurs in `x ++ y` occurs in `x`, in `y`, or straddles the seam with a
nonempty part on each side. -/
theorem infix_append_split {x y : List α} (h : w <:+: x ++ y) :
    w <:+: x ∨ w <:+: y ∨ ∃ w₁ w₂, w = w₁ ++ w₂ ∧ w₁ ≠ [] ∧ w₂ ≠ [] ∧ w₁ <:+ x ∧ w₂ <+: y := by
  induction x with
  | nil => exact .inr (.inl h)
  | cons d x ih =>
    rcases List.infix_cons_iff.mp h with h | h
    · rcases List.prefix_or_prefix_of_prefix h (List.prefix_append (d :: x) y) with h' | ⟨z, rfl⟩
      · exact .inl h'.isInfix
      · rcases eq_or_ne z [] with rfl | hz
        · exact .inl (by simp)
        · exact .inr (.inr ⟨d :: x, z, rfl, List.cons_ne_nil _ _, hz, List.suffix_refl _,
            (List.prefix_append_right_inj (d :: x)).mp h⟩)
    · rcases ih h with h | h | ⟨w₁, w₂, rfl, h₁, h₂, hx, hy⟩
      · exact .inl (List.infix_cons h)
      · exact .inr (.inl h)
      · exact .inr (.inr ⟨w₁, w₂, rfl, h₁, h₂, hx.trans (List.suffix_cons d x), hy⟩)

end Separators

end SdkMigration
