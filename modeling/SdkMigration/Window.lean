import Mathlib.Algebra.Order.Ring.Nat
import Mathlib.Logic.Relation
import SdkMigration.Regex

/-!
# Fixed-width patterns: windows and occurrence counts

A pattern with no quantifier matches a window of exactly its own length, one character per
atom.  For such a pattern `fits` says whether it matches at the start of a text, and
`count` is the number of positions of a text where it does.  The results about the scripts
that build on this module are counts of such positions: the `while` loop of
`remove_sdk_helper_create` runs at most as often as its text has positions where
`SdkHelper`, one character and `create(` occur, and a rewrite creates no new match when no
window of the pattern can reach into the text it inserts.

Everything about a concatenation `x ++ y` goes through `count_append`: a window lies in `x`,
or lies in `y`, or starts in `x` and ends in `y` (`straddle`).  The side conditions that rule
out straddling windows next to a known word (`RightSafe`, `LeftSafe`) are decidable, so for
the scripts' concrete replacement texts they are checked by `decide`.
-/

namespace SdkMigration.Regex

/-- The one character an atom of a fixed-width pattern admits; a quantifier admits none
here. -/
def Atom.accepts (dotall : Bool) : Atom → Char → Bool
  | .lit c, d => d == c
  | .cls k, d => k.test dotall d
  | .star _, _ => false
  | .plus _, _ => false

/-- An atom that matches exactly one character. -/
def Atom.fixed : Atom → Bool
  | .lit _ | .cls _ => true
  | .star _ | .plus _ => false

/-- The fixed-width pattern `p` matches the first `p.length` characters of the text. -/
def fits (dotall : Bool) : List Atom → List Char → Bool
  | [], _ => true
  | a :: p, c :: s => a.accepts dotall c && fits dotall p s
  | _ :: _, [] => false

/-- The number of positions of the text at which `p` fits. -/
def count (dotall : Bool) (p : List Atom) : List Char → Nat
  | [] => 0
  | c :: s => (if fits dotall p (c :: s) then 1 else 0) + count dotall p s

/-- The windows of `p` that start in `x` and end in `y`: the nonempty suffixes `z` of `x`
shorter than `p` such that `p` fits `z ++ y`. -/
def straddle (dotall : Bool) (p : List Atom) : List Char → List Char → Nat
  | [], _ => 0
  | c :: x, y =>
    (if x.length + 1 < p.length ∧ fits dotall p (c :: x ++ y) then 1 else 0) +
      straddle dotall p x y

variable {dotall : Bool}

/-! ## Windows -/

theorem length_le_of_fits : ∀ {p : List Atom} {s : List Char}, fits dotall p s →
    p.length ≤ s.length
  | [], _, _ => Nat.zero_le _
  | _ :: _, _ :: _, h => by
    simp only [fits, Bool.and_eq_true] at h
    simpa using length_le_of_fits h.2
  | _ :: _, [], h => by simp [fits] at h

/-- A window only reads its own length of the text. -/
theorem fits_append_of_le : ∀ {p : List Atom} {x : List Char} (y : List Char),
    p.length ≤ x.length → fits dotall p (x ++ y) = fits dotall p x
  | [], _, _, _ => rfl
  | _ :: _, [], _, h => by simp at h
  | a :: p, c :: x, y, h => by
    rw [List.cons_append, fits.eq_2, fits.eq_2, fits_append_of_le y (by simpa using h)]

theorem fits_append (y : List Char) {p : List Atom} {x : List Char} (h : fits dotall p x) :
    fits dotall p (x ++ y) := by
  rwa [fits_append_of_le y (length_le_of_fits h)]

/-- A window split at the end of `x`: the first atoms fit `x`, the rest fit `y`. -/
theorem fits_append_split : ∀ {p : List Atom} {x y : List Char}, x.length ≤ p.length →
    fits dotall p (x ++ y) → fits dotall (p.take x.length) x ∧ fits dotall (p.drop x.length) y
  | _, [], _, _, h => ⟨rfl, h⟩
  | [], _ :: _, _, hl, _ => by simp at hl
  | a :: p, c :: x, y, hl, h => by
    rw [List.cons_append, fits.eq_2, Bool.and_eq_true] at h
    obtain ⟨h1, h2⟩ := fits_append_split (by simpa using hl) h.2
    exact ⟨by simp [fits, h.1, h1], by simpa using h2⟩

/-- Every literal of a pattern occurs in a window it fits. -/
theorem mem_take_of_fits : ∀ {p : List Atom} {s : List Char} {c : Char}, fits dotall p s →
    Atom.lit c ∈ p → c ∈ s.take p.length
  | [], _, _, _, hc => by simp at hc
  | _ :: _, [], _, h, _ => by simp [fits] at h
  | a :: p, d :: s, c, h, hc => by
    simp only [fits, Bool.and_eq_true] at h
    rcases List.mem_cons.mp hc with rfl | hc
    · simp only [Atom.accepts, beq_iff_eq] at h
      simp [h.1]
    · simp [mem_take_of_fits h.2 hc]

/-- A fixed-width prefix of a pattern is matched window by window. -/
theorem matchAt_append_of_fixed : ∀ {p : List Atom} (q : List Atom) (s : List Char),
    (∀ a ∈ p, a.fixed) →
      matchAt dotall (p ++ q) s = if fits dotall p s then matchAt dotall q (s.drop p.length)
        else none
  | [], _, _, _ => by simp [fits]
  | .lit c :: p, q, [], _ => by simp [matchAt, fits]
  | .cls k :: p, q, [], _ => by simp [matchAt, fits]
  | .lit c :: p, q, d :: s, h => by
    rw [List.cons_append, matchAt.eq_2, fits.eq_2,
      matchAt_append_of_fixed q s fun a ha => h a (List.mem_cons_of_mem _ ha)]
    by_cases hd : d = c <;> simp [hd, Atom.accepts]
  | .cls k :: p, q, d :: s, h => by
    rw [List.cons_append, matchAt.eq_3, fits.eq_2,
      matchAt_append_of_fixed q s fun a ha => h a (List.mem_cons_of_mem _ ha)]
    by_cases hd : k.test dotall d <;> simp [hd, Atom.accepts]
  | .star _ :: _, _, _, h | .plus _ :: _, _, _, h => by simp [Atom.fixed] at h

/-! ## Counting windows -/

/-- The windows of `x ++ y`: those in `x`, those straddling the seam, those in `y`. -/
theorem count_append (p : List Atom) : ∀ (x y : List Char),
    count dotall p (x ++ y) = count dotall p x + straddle dotall p x y + count dotall p y
  | [], _ => by simp [count, straddle]
  | c :: x, y => by
    rw [List.cons_append, count.eq_2, count.eq_2, straddle.eq_2, ← List.cons_append,
      count_append p x y]
    by_cases hl : x.length + 1 < p.length
    · have hx : fits dotall p (c :: x) = false := by
        by_contra h
        have := length_le_of_fits (Bool.not_eq_false _ ▸ h)
        simp at this
        omega
      simp only [hx, hl, true_and, Bool.false_eq_true, if_false]
      omega
    · rw [fits_append_of_le y (by simp; omega)]
      simp only [hl, false_and, if_false]
      omega

theorem count_le_append (p : List Atom) (x y : List Char) :
    count dotall p x ≤ count dotall p (x ++ y) := by
  rw [count_append]; omega

theorem count_le_of_prefix (p : List Atom) {x s : List Char} (h : x <+: s) :
    count dotall p x ≤ count dotall p s := by
  obtain ⟨y, rfl⟩ := h
  exact count_le_append p x y

/-- The windows of the parts of `x ++ y ++ z` are windows of the whole. -/
theorem count_add_le_append (p : List Atom) (x y z : List Char) :
    count dotall p x + count dotall p y + count dotall p z ≤ count dotall p (x ++ y ++ z) := by
  rw [count_append, count_append]; omega

theorem count_le_of_infix (p : List Atom) {x s : List Char} (h : x <:+: s) :
    count dotall p x ≤ count dotall p s := by
  obtain ⟨u, v, rfl⟩ := h
  rw [count_append, count_append]; omega

/-- A pattern that fits at the start of a text has a window there. -/
theorem one_le_count_of_fits {p : List Atom} (hp : p ≠ []) :
    ∀ {s : List Char}, fits dotall p s = true → 1 ≤ count dotall p s
  | [], h => by
    obtain ⟨a, q, rfl⟩ := List.exists_cons_of_ne_nil hp
    simp [fits] at h
  | c :: s, h => by simp [count, h]

/-- Where no window of `p` starts in `x`, the pattern fits at no position of `x`. -/
theorem fits_eq_false_of_count {p : List Atom} {x y z : List Char}
    (h : count dotall p (x ++ y) = count dotall p y) (hz : z <:+ x) (hne : z ≠ []) :
    fits dotall p (z ++ y) = false := by
  obtain ⟨x', rfl⟩ := hz
  obtain ⟨c, z', rfl⟩ := List.exists_cons_of_ne_nil hne
  by_contra hf
  have h1 : count dotall p y ≤ count dotall p (z' ++ y) :=
    count_le_of_infix p (List.suffix_append _ _).isInfix
  have h2 : count dotall p (c :: z' ++ y) ≤ count dotall p (x' ++ c :: z' ++ y) :=
    count_le_of_infix p (by rw [List.append_assoc]; exact (List.suffix_append _ _).isInfix)
  have h3 : count dotall p (c :: z' ++ y) = 1 + count dotall p (z' ++ y) := by
    rw [List.cons_append, count, if_pos (Bool.not_eq_false _ ▸ hf)]
  omega

/-- A pattern that holds a literal missing from the text has no window in it. -/
theorem count_eq_zero_of_lit {p : List Atom} {c : Char} (hc : Atom.lit c ∈ p) :
    ∀ {s : List Char}, c ∉ s → count dotall p s = 0
  | [], _ => rfl
  | d :: s, h => by
    have hfit : fits dotall p (d :: s) = false := by
      by_contra hf
      exact h (List.mem_of_mem_take (mem_take_of_fits (Bool.not_eq_false _ ▸ hf) hc))
    simp only [count, hfit, count_eq_zero_of_lit hc (fun hs => h (List.mem_cons_of_mem _ hs))]
    rfl

/-! ## Seams next to a known word

A window that crosses a seam next to a known word `w` reads some characters of `w`.  The
two conditions below say that the atoms such a window lays over `w` never fit there, which
is all the proofs need and is checked by `decide` for a concrete word: a window may be longer
than `w` and cover it whole. -/

/-- No window of `p` starts in `w`, or before it, and ends after it: the first `k` atoms of
such a window end on the last characters of `w`. -/
def RightSafe (dotall : Bool) (p : List Atom) (w : List Char) : Prop :=
  ∀ k < p.length, 0 < k →
    fits dotall ((p.take k).drop (k - w.length)) (w.drop (w.length - k)) = false

/-- No window of `p` starts before `w` and ends in it, or after it: the atoms after the
first `k` begin on the first characters of `w`. -/
def LeftSafe (dotall : Bool) (p : List Atom) (w : List Char) : Prop :=
  ∀ k < p.length, 0 < k → fits dotall ((p.drop k).take w.length) w = false

instance (p : List Atom) (w : List Char) : Decidable (RightSafe dotall p w) :=
  inferInstanceAs (Decidable (∀ k < p.length, _))

instance (p : List Atom) (w : List Char) : Decidable (LeftSafe dotall p w) :=
  inferInstanceAs (Decidable (∀ k < p.length, _))

/-- The atoms of a window over a prefix `w` of its text fit `w`. -/
theorem fits_take_of_fits_append : ∀ {p : List Atom} {w : List Char} (y : List Char),
    fits dotall p (w ++ y) → fits dotall (p.take w.length) w
  | [], _, _, _ => by rw [List.take_nil]; rfl
  | _ :: _, [], _, _ => rfl
  | a :: p, c :: w, y, h => by
    rw [List.cons_append, fits.eq_2, Bool.and_eq_true] at h
    simp only [List.length_cons, List.take_succ_cons, fits, h.1, fits_take_of_fits_append y h.2,
      Bool.and_self]

/-- A suffix of `x ++ w` is a part of `x` followed by the last characters of `w`. -/
theorem eq_append_drop_of_suffix {z x w : List Char} (h : z <:+ x ++ w) :
    z = z.take (z.length - w.length) ++ w.drop (w.length - z.length) := by
  rcases Nat.le_total z.length w.length with hl | hl
  · rw [Nat.sub_eq_zero_of_le hl, List.take_zero, List.nil_append]
    exact List.suffix_iff_eq_drop.mp
      (List.suffix_of_suffix_length_le h (List.suffix_append x w) hl)
  · obtain ⟨u, rfl⟩ := List.suffix_of_suffix_length_le (List.suffix_append x w) h hl
    simp

/-- Straddling windows are ruled out one suffix of `x` at a time. -/
theorem straddle_eq_zero {p : List Atom} : ∀ {x y : List Char},
    (∀ z, z <:+ x → 0 < z.length → z.length < p.length → fits dotall p (z ++ y) = false) →
      straddle dotall p x y = 0
  | [], _, _ => rfl
  | c :: x, y, h => by
    have hx := straddle_eq_zero (x := x) (y := y)
      fun z hz => h z (hz.trans (List.suffix_cons c x))
    simp only [straddle, hx, Nat.add_zero, ite_eq_right_iff, and_imp]
    intro hl hf
    rw [h (c :: x) (List.suffix_refl _) (by simp) (by simpa using hl)] at hf
    cases hf

/-- No window straddles a seam whose left side ends in a right-safe word. -/
theorem straddle_eq_zero_of_rightSafe {p : List Atom} {w : List Char}
    (hw : RightSafe dotall p w) (x y : List Char) : straddle dotall p (x ++ w) y = 0 := by
  refine straddle_eq_zero fun z hz h0 hl => ?_
  by_contra hf
  have h1 := (fits_append_split hl.le (Bool.not_eq_false _ ▸ hf)).1
  nth_rewrite 2 [eq_append_drop_of_suffix hz] at h1
  have h2 := (fits_append_split (by simp; omega) h1).2
  rw [List.length_take, Nat.min_eq_left (Nat.sub_le _ _), hw z.length hl h0] at h2
  cases h2

/-- No window straddles a seam whose right side starts with a left-safe word. -/
theorem straddle_eq_zero_of_leftSafe {p : List Atom} {w : List Char}
    (hw : LeftSafe dotall p w) (x y : List Char) : straddle dotall p x (w ++ y) = 0 := by
  refine straddle_eq_zero fun z _ h0 hl => ?_
  by_contra hf
  have h2 := fits_take_of_fits_append y (fits_append_split hl.le (Bool.not_eq_false _ ▸ hf)).2
  rw [hw z.length hl h0] at h2
  cases h2

/-! ## Lines -/

/-- Every atom of the pattern refuses a newline, so no window spans two lines. -/
def NoNewline (dotall : Bool) (p : List Atom) : Prop := ∀ a ∈ p, a.accepts dotall '\n' = false

instance (p : List Atom) : Decidable (NoNewline dotall p) :=
  inferInstanceAs (Decidable (∀ a ∈ p, _))

theorem straddle_newline {p : List Atom} (hp : NoNewline dotall p) (x y : List Char) :
    straddle dotall p x ('\n' :: y) = 0 := by
  refine straddle_eq_zero fun z _ _ hl => ?_
  by_contra hf
  have h2 := (fits_append_split hl.le (Bool.not_eq_false _ ▸ hf)).2
  obtain ⟨a, q, hq⟩ := List.exists_cons_of_ne_nil (by simp; omega : p.drop z.length ≠ [])
  rw [hq, fits.eq_2, hp a (List.mem_of_mem_drop (hq ▸ List.mem_cons_self a q))] at h2
  cases h2

theorem count_newline_cons {p : List Atom} (hp : NoNewline dotall p) (hne : p ≠ [])
    (y : List Char) : count dotall p ('\n' :: y) = count dotall p y := by
  obtain ⟨a, q, rfl⟩ := List.exists_cons_of_ne_nil hne
  simp [count, fits, hp a (List.mem_cons_self a q)]

/-- The windows of joined lines are the windows of the lines. -/
theorem count_joinLines {p : List Atom} (hp : NoNewline dotall p) (hne : p ≠ []) :
    ∀ ls : List (List Char), count dotall p (joinLines ls) = (ls.map (count dotall p)).sum
  | [] => rfl
  | [l] => by simp
  | l :: l' :: ls => by
    rw [joinLines_cons_cons, count_append, straddle_newline hp, count_newline_cons hp hne,
      count_joinLines hp hne (l' :: ls)]
    simp

/-! ## Words no window touches -/

/-- A replacement word for `q`: it holds no window of `q`, and no window of `q` crosses
either of its ends. -/
structure Clean (dotall : Bool) (q : List Atom) (w : List Char) : Prop where
  count_eq : count dotall q w = 0
  left : LeftSafe dotall q w
  right : RightSafe dotall q w

instance (q : List Atom) (w : List Char) : Decidable (Clean dotall q w) :=
  decidable_of_iff (count dotall q w = 0 ∧ LeftSafe dotall q w ∧ RightSafe dotall q w)
    ⟨fun h => ⟨h.1, h.2.1, h.2.2⟩, fun h => ⟨h.1, h.2, h.3⟩⟩

/-- A clean word between two texts adds no window and lets none cross it. -/
theorem count_clean_append {q : List Atom} {w : List Char} (hw : Clean dotall q w)
    (x y : List Char) : count dotall q (x ++ w ++ y) = count dotall q x + count dotall q y := by
  have hr := straddle_eq_zero_of_rightSafe hw.right [] y
  rw [List.nil_append] at hr
  rw [List.append_assoc, count_append, straddle_eq_zero_of_leftSafe hw.left, count_append,
    hw.count_eq, hr]
  omega

/-! ## `re.sub` with a fixed-width pattern

A fixed-width pattern matches exactly where it fits and takes a window of its own width, so
`re.sub` copies each character where the pattern does not fit and puts the replacement in
place of each window it takes.  With a replacement word that is clean, counting windows
along that scan gives the two facts the accessor passes rest on: the substitution leaves no
window of its own pattern (`count_sub_self`), and creates no window of any other pattern
the word is clean for (`count_sub_le`). -/

/-- A nonempty pattern of atoms that each match one character. -/
structure Fixed (p : List Atom) : Prop where
  ne_nil : p ≠ []
  fixed : ∀ a ∈ p, a.fixed

instance (p : List Atom) : Decidable (Fixed p) :=
  decidable_of_iff (p ≠ [] ∧ ∀ a ∈ p, a.fixed) ⟨fun h => ⟨h.1, h.2⟩, fun h => ⟨h.1, h.2⟩⟩

section FixedSub

variable {p q : List Atom} {repl : List Char → List Char}

theorem matchAt_of_fixed (hp : Fixed p) (s : List Char) :
    matchAt dotall p s = if fits dotall p s then some (s.drop p.length) else none := by
  simpa using matchAt_append_of_fixed [] s hp.fixed

theorem fits_nil_of_fixed (hp : Fixed p) : fits dotall p [] = false := by
  obtain ⟨a, p', rfl⟩ := List.exists_cons_of_ne_nil hp.ne_nil
  rfl

theorem sub_nil_of_fixed (hp : Fixed p) : sub dotall p repl [] = [] := by
  simp [sub, scan_nil, matchAt_of_fixed hp, fits_nil_of_fixed hp]

theorem sub_cons_of_not_fits (hp : Fixed p) {c : Char} {t : List Char}
    (h : fits dotall p (c :: t) = false) :
    sub dotall p repl (c :: t) = c :: sub dotall p repl t :=
  sub_cons_of_none (by rw [matchAt_of_fixed hp, h]; rfl)

/-- Where the pattern fits, its window is replaced and the scan resumes after it. -/
theorem sub_of_fits (hp : Fixed p) {s : List Char} (h : fits dotall p s = true) :
    sub dotall p repl s = repl (s.take p.length) ++ sub dotall p repl (s.drop p.length) := by
  have hl := length_le_of_fits h
  have hpos := List.length_pos.mpr hp.ne_nil
  rw [sub_of_some (by rw [matchAt_of_fixed hp, h]; rfl) (by simp; omega), List.length_drop,
    Nat.sub_sub_self hl]

/-- Where the pattern fits nowhere, `re.sub` changes nothing. -/
theorem sub_eq_self_of_count (hp : Fixed p) : ∀ {s : List Char},
    count dotall p s = 0 → sub dotall p repl s = s
  | [], _ => sub_nil_of_fixed hp
  | c :: t, h => by
    rw [count, Nat.add_eq_zero, ite_eq_right_iff] at h
    have hc : fits dotall p (c :: t) = false := by
      by_contra hf
      exact absurd (h.1 (Bool.not_eq_false _ ▸ hf)) Nat.one_ne_zero
    rw [sub_cons_of_not_fits hp hc, sub_eq_self_of_count hp h.2]

/-- A substitution whose replacement word is clean for `q` creates no window of `q`; the
prefix `x` is the text the scan has already copied. -/
theorem count_sub_le (hp : Fixed p) {w : List Char} (hw : Clean dotall q w) (x s : List Char) :
    count dotall q (x ++ sub dotall p (fun _ => w) s) ≤ count dotall q (x ++ s) := by
  match s with
  | [] => rw [sub_nil_of_fixed hp]
  | c :: t =>
    by_cases h : fits dotall p (c :: t)
    · have ih := count_sub_le hp hw [] ((c :: t).drop p.length)
      have hsplit := @count_add_le_append dotall q x ((c :: t).take p.length) ((c :: t).drop p.length)
      rw [List.append_assoc, List.take_append_drop] at hsplit
      rw [sub_of_fits hp h, ← List.append_assoc, count_clean_append hw]
      simp only [List.nil_append] at ih
      omega
    · rw [sub_cons_of_not_fits hp (Bool.not_eq_true _ ▸ h)]
      simpa using count_sub_le hp hw (x ++ [c]) t
termination_by s.length
decreasing_by
  all_goals simp_wf
  all_goals have := List.length_pos.mpr hp.ne_nil; omega

/-- A substitution whose replacement word is clean for its own pattern leaves no window of
it: `hx` says no window starts in the copied prefix `x`. -/
theorem count_sub_self (hp : Fixed p) {w : List Char} (hw : Clean dotall p w) (x s : List Char)
    (hx : count dotall p (x ++ s) = count dotall p s) :
    count dotall p (x ++ sub dotall p (fun _ => w) s) = 0 := by
  match s with
  | [] => simpa [sub_nil_of_fixed hp, count] using hx
  | c :: t =>
    by_cases h : fits dotall p (c :: t)
    · have ih := count_sub_self hp hw [] ((c :: t).drop p.length) rfl
      rw [count_append] at hx
      rw [sub_of_fits hp h, ← List.append_assoc, count_clean_append hw]
      simp only [List.nil_append] at ih
      omega
    · have hx' : count dotall p (x ++ [c] ++ t) = count dotall p t := by
        rw [List.append_assoc, List.singleton_append, hx, count, if_neg h, Nat.zero_add]
      rw [sub_cons_of_not_fits hp (Bool.not_eq_true _ ▸ h)]
      simpa using count_sub_self hp hw (x ++ [c]) t hx'
termination_by s.length
decreasing_by
  all_goals simp_wf
  all_goals have := List.length_pos.mpr hp.ne_nil; omega

/-- A literal word fits exactly the texts it begins. -/
theorem fits_lits : ∀ w s : List Char, fits dotall (w.map .lit) s = w.isPrefixOf s
  | [], s => by cases s <;> rfl
  | _ :: _, [] => rfl
  | c :: w, d :: s => by
    by_cases hdc : d = c
    · subst hdc; simp [fits, Atom.accepts, List.isPrefixOf, fits_lits w s]
    · have h1 : (d == c) = false := by simpa using hdc
      have h2 : (c == d) = false := by simpa using Ne.symm hdc
      simp [fits, Atom.accepts, List.isPrefixOf, h1, h2]

/-- A pattern matches only where the text ahead holds each literal word of the pattern. -/
theorem infix_of_matchAt_isSome {w : List Char} {q : List Atom} :
    ∀ (pre : List Atom) (s : List Char),
      (matchAt dotall (pre ++ w.map .lit ++ q) s).isSome → w <:+: s
  | [], s, h => by
    rw [List.nil_append, matchAt_append_of_fixed q s (by simp [Atom.fixed]), fits_lits] at h
    split at h
    · next hp => exact (List.isPrefixOf_iff_prefix.mp hp).isInfix
    · cases h
  | .lit _ :: pre, d :: s, h | .cls _ :: pre, d :: s, h => by
    simp only [List.cons_append, matchAt] at h
    split at h
    · exact List.infix_cons (infix_of_matchAt_isSome pre s h)
    · cases h
  | .star k :: pre, s, h => by
    rw [List.cons_append, List.cons_append, matchAt.eq_4] at h
    obtain ⟨t, ht, hn⟩ := starMatch_isSome_suffix s h
    exact (infix_of_matchAt_isSome pre t hn).trans ht.isInfix
  | .plus k :: pre, d :: s, h => by
    rw [List.cons_append, List.cons_append, matchAt.eq_5] at h
    split at h
    · obtain ⟨t, ht, hn⟩ := starMatch_isSome_suffix s h
      exact (infix_of_matchAt_isSome pre t hn).trans (ht.trans (List.suffix_cons d s)).isInfix
    · cases h
  | .lit _ :: _, [], h | .cls _ :: _, [], h | .plus _ :: _, [], h => by
    simp [matchAt] at h

/-- A pattern that holds a literal word the text lacks matches nowhere in it, so `re.sub`
leaves the text as it is. -/
theorem sub_eq_self_of_not_infix {w : List Char} (hp : w.map .lit <:+: p) :
    ∀ {s : List Char}, ¬w <:+: s → sub dotall p repl s = s := by
  obtain ⟨pre, q, rfl⟩ := hp
  intro s hs
  induction s with
  | nil =>
    have hm : matchAt dotall (pre ++ w.map .lit ++ q) [] = none :=
      Option.not_isSome_iff_eq_none.mp fun h => hs (infix_of_matchAt_isSome pre [] h)
    rw [sub, scan_nil, hm]
    rfl
  | cons d t ih =>
    rw [sub_cons_of_none (Option.not_isSome_iff_eq_none.mp
        fun h => hs (infix_of_matchAt_isSome pre _ h)),
      ih fun ht => hs (List.infix_cons ht)]

end FixedSub

/-! ## Literal runs

`Absent p s` says that some maximal run of literal characters of `p` does not occur in `s`.
It is decidable, so it shows by `decide` that a rule cannot fire on a concrete text without
running the matcher over it. -/

/-- The maximal runs of literal characters of a pattern, in order. -/
def literalRuns : List Atom → List (List Char)
  | [] => [[]]
  | .lit c :: p =>
    match literalRuns p with
    | w :: ws => (c :: w) :: ws
    | [] => [[c]]
  | .cls _ :: p | .star _ :: p | .plus _ :: p => [] :: literalRuns p

/-- The first run begins the pattern, and every run occurs in it. -/
theorem literalRuns_spec : ∀ p : List Atom,
    (∀ w ws, literalRuns p = w :: ws → w.map .lit <+: p) ∧
      ∀ w ∈ literalRuns p, w.map .lit <:+: p
  | [] => ⟨fun w ws h => by simp_all [literalRuns], fun w hw => by simp_all [literalRuns]⟩
  | .lit c :: p => by
    obtain ⟨hhead, hall⟩ := literalRuns_spec p
    cases h : literalRuns p with
    | nil =>
      have hc : [c].map Atom.lit <+: Atom.lit c :: p := by simp
      rw [literalRuns, h]
      exact ⟨fun w ws e => by cases e; exact hc,
        fun w hw => by rw [List.mem_singleton.mp hw]; exact hc.isInfix⟩
    | cons w' ws =>
      have hc : (c :: w').map Atom.lit <+: Atom.lit c :: p := by simpa using hhead w' ws h
      rw [literalRuns, h]
      refine ⟨fun w ws' e => by cases e; exact hc, fun v hv => ?_⟩
      rcases List.mem_cons.mp hv with rfl | hv
      · exact hc.isInfix
      · exact List.infix_cons (hall v (h ▸ List.mem_cons_of_mem _ hv))
  | .cls _ :: p | .star _ :: p | .plus _ :: p => by
    obtain ⟨-, hall⟩ := literalRuns_spec p
    refine ⟨fun w ws e => ?_, fun v hv => ?_⟩
    · simp only [literalRuns, List.cons.injEq] at e
      rw [← e.1]; exact List.nil_prefix
    · simp only [literalRuns, List.mem_cons] at hv
      rcases hv with rfl | hv
      · exact List.nil_infix
      · exact List.infix_cons (hall v hv)

/-- Some maximal literal run of the pattern does not occur in the text. -/
def Absent (p : List Atom) (s : List Char) : Prop := ∃ w ∈ literalRuns p, ¬w <:+: s

instance (p : List Atom) (s : List Char) : Decidable (Absent p s) :=
  inferInstanceAs (Decidable (∃ w ∈ literalRuns p, ¬w <:+: s))

/-- A pattern one of whose literal runs the text lacks does not fire on it. -/
theorem sub_eq_self_of_absent {p : List Atom} {s : List Char} {repl : List Char → List Char}
    (h : Absent p s) : sub dotall p repl s = s := by
  obtain ⟨w, hw, hs⟩ := h
  exact sub_eq_self_of_not_infix ((literalRuns_spec p).2 w hw) hs

/-! ## `str.replace`

A literal word fits exactly where the text begins with it, so `strReplace` copies a
character, or puts `new` in place of one copy of `old` and resumes after it; read as a
rewrite, it is a run of single replacements (`strReplace_replaceOnce`). -/

section StrReplace

variable {old new : List Char}

theorem fixed_lits (h : old ≠ []) : Fixed (old.map .lit) :=
  ⟨by simpa using h, fun a ha => by obtain ⟨c, -, rfl⟩ := List.mem_map.mp ha; rfl⟩

theorem strReplace_nil (h : old ≠ []) : strReplace old new [] = [] :=
  sub_nil_of_fixed (fixed_lits h)

theorem strReplace_append (h : old ≠ []) (s : List Char) :
    strReplace old new (old ++ s) = new ++ strReplace old new s := by
  rw [strReplace, sub_of_fits (fixed_lits h) (by simp [fits_lits])]
  simp [strReplace]

theorem strReplace_cons (h : old ≠ []) {c : Char} {s : List Char} (hc : ¬old <+: c :: s) :
    strReplace old new (c :: s) = c :: strReplace old new s :=
  sub_cons_of_not_fits (fixed_lits h) (by
    rw [fits_lits]
    exact Bool.eq_false_iff.mpr fun e => hc (List.isPrefixOf_iff_prefix.mp e))

/-- One copy of `old` in the text replaced by `new`. -/
def ReplaceOnce (old new a b : List Char) : Prop := ∃ x y, a = x ++ old ++ y ∧ b = x ++ new ++ y

theorem ReplaceOnce.append_left {a b : List Char} (w : List Char) (h : ReplaceOnce old new a b) :
    ReplaceOnce old new (w ++ a) (w ++ b) := by
  obtain ⟨x, y, rfl, rfl⟩ := h
  exact ⟨w ++ x, y, by simp, by simp⟩

/-- `s.replace(old, new)` is a run of single replacements. -/
theorem strReplace_replaceOnce (h : old ≠ []) (s : List Char) :
    Relation.ReflTransGen (ReplaceOnce old new) s (strReplace old new s) := by
  by_cases hp : old <+: s
  · obtain ⟨r, rfl⟩ := hp
    have hr : r.length < (old ++ r).length := by simp [List.length_pos.mpr h]
    rw [strReplace_append h]
    exact .head ⟨[], r, by simp, by simp⟩
      ((strReplace_replaceOnce h r).lift _ fun _ _ => ReplaceOnce.append_left new)
  · match s with
    | [] => rw [strReplace_nil h]
    | c :: s =>
      rw [strReplace_cons h hp]
      exact (strReplace_replaceOnce h s).lift _ fun _ _ => ReplaceOnce.append_left [c]
termination_by s.length

end StrReplace

end SdkMigration.Regex
