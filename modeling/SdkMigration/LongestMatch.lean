import SdkMigration.Window

/-!
# One longest-match pass for a table of fixed-width rules

`replace_imports` applies its table one rule after another, each rule a `re.sub` of a
fixed-width pattern over the whole text.  Read as one pass, the table does something
simpler: at each position it takes the longest pattern that fits there, puts that rule's
word in place of its window, and resumes after it (`longestScan`).  The two agree on every
text when the table is ordered so that no rule loses to a later one (`Sequential`): where an
earlier and a later pattern can fit at one place the earlier is at least as long, no window
of a later pattern holds the start of an earlier one, and the word an earlier rule writes is
clean for every later pattern.  `foldl_sub_eq_longestScan` is the agreement; the conditions
are decidable, so for a concrete table they are checked by `decide`.

## What is transcribed and what is ours

Nothing here is transcribed from the scripts: `longestFit` and `longestScan` are the
reference reading of a rule table, and the sequential loop they are compared with is
`sub` folded over the table.  The proof peels off the first rule
(`longestScan_cons_eq`): its `re.sub` does at each position what the longest-match scan does
with that rule, and leaves the later rules nothing new to find.
-/

namespace SdkMigration.Regex

variable {dotall : Bool}

/-! ## The longest fitting rule -/

/-- The longest rule of the table whose pattern fits at the start of the text; of rules of
one length, the first. -/
def longestFit (dotall : Bool) (s : List Char) :
    List (List Atom × List Char) → Option (List Atom × List Char)
  | [] => none
  | r :: rs =>
    if fits dotall r.1 s ∧ (longestFit dotall s rs).all fun b => b.1.length ≤ r.1.length then
      some r
    else longestFit dotall s rs

section LongestFit

variable {s s' : List Char} {r : List Atom × List Char}

/-- The rule chosen is a rule of the table that fits. -/
theorem longestFit_spec : ∀ {rules : List (List Atom × List Char)},
    longestFit dotall s rules = some r → r ∈ rules ∧ fits dotall r.1 s
  | [], h => by cases h
  | r' :: rs, h => by
    rw [longestFit] at h
    split at h
    · next hc => cases h; exact ⟨List.mem_cons_self _ _, hc.1⟩
    · exact (longestFit_spec h).imp_left (List.mem_cons_of_mem _)

/-- No rule is chosen exactly where none fits. -/
theorem longestFit_eq_none : ∀ {rules : List (List Atom × List Char)},
    longestFit dotall s rules = none ↔ ∀ q ∈ rules, fits dotall q.1 s = false
  | [] => by simp [longestFit]
  | r' :: rs => by
    rw [longestFit, List.forall_mem_cons, ← longestFit_eq_none]
    split
    · next hc => simp [hc.1]
    · next hc =>
      constructor
      · intro h
        rw [h] at hc
        exact ⟨by simpa using hc, h⟩
      · exact And.right

/-- Every rule that fits is at most as long as the one chosen. -/
theorem le_longestFit : ∀ {rules : List (List Atom × List Char)} {q : List Atom × List Char},
    q ∈ rules → fits dotall q.1 s →
      ∃ b, longestFit dotall s rules = some b ∧ q.1.length ≤ b.1.length
  | r' :: rs, q, hq, hf => by
    rw [longestFit]
    have ih : q ∈ rs → ∃ b, longestFit dotall s rs = some b ∧ q.1.length ≤ b.1.length :=
      fun h => le_longestFit h hf
    split
    · next hc =>
      refine ⟨r', rfl, ?_⟩
      rcases List.mem_cons.mp hq with rfl | hq
      · exact le_rfl
      · obtain ⟨b, hb, hl⟩ := ih hq
        simp only [hb, Option.all_some, decide_eq_true_eq] at hc
        exact hl.trans hc.2
    · next hc =>
      rcases List.mem_cons.mp hq with rfl | hq
      · cases h : longestFit dotall s rs with
        | none => simp [h, hf] at hc
        | some b =>
          simp only [h, Option.all_some, decide_eq_true_eq, hf, true_and, not_le] at hc
          exact ⟨b, rfl, hc.le⟩
      · exact ih hq

theorem longestFit_cons_of_not_fits {rs : List (List Atom × List Char)}
    (h : fits dotall r.1 s = false) : longestFit dotall s (r :: rs) = longestFit dotall s rs := by
  simp [longestFit, h]

/-- A rule that fits and is at least as long as every later rule that fits is chosen. -/
theorem longestFit_cons_of_fits {rs : List (List Atom × List Char)} (h : fits dotall r.1 s)
    (hle : ∀ q ∈ rs, fits dotall q.1 s → q.1.length ≤ r.1.length) :
    longestFit dotall s (r :: rs) = some r := by
  have hall : (longestFit dotall s rs).all (fun b => b.1.length ≤ r.1.length) := by
    cases hb : longestFit dotall s rs with
    | none => rfl
    | some b =>
      obtain ⟨hmem, hf⟩ := longestFit_spec hb
      simpa using hle b hmem hf
  rw [longestFit, if_pos ⟨h, hall⟩]

/-- On a text where every rule that fits also fits the first text, a rule chosen on the
first text that still fits is chosen again. -/
theorem longestFit_of_imp : ∀ {rules : List (List Atom × List Char)},
    (∀ q ∈ rules, fits dotall q.1 s' → fits dotall q.1 s) →
      longestFit dotall s rules = some r → fits dotall r.1 s' →
        longestFit dotall s' rules = some r
  | r' :: rs, himp, h, hr => by
    have ih := @longestFit_of_imp rs (fun q hq => himp q (List.mem_cons_of_mem _ hq))
    rw [longestFit] at h ⊢
    split at h
    · next hc =>
      cases h
      refine if_pos ⟨hr, ?_⟩
      cases hb : longestFit dotall s' rs with
      | none => rfl
      | some b =>
        obtain ⟨hmem, hf⟩ := longestFit_spec hb
        obtain ⟨b', hb', hl⟩ := le_longestFit hmem (himp b (List.mem_cons_of_mem _ hmem) hf)
        simp only [hb', Option.all_some, decide_eq_true_eq] at hc
        simpa using hl.trans hc.2
    · next hc =>
      rw [ih h hr, if_neg]
      rintro ⟨hf, hle⟩
      refine hc ⟨himp r' (List.mem_cons_self _ _) hf, ?_⟩
      simpa [h] using hle

end LongestFit

/-! ## The longest-match scan -/

/-- The longest-match scan on at most `fuel` positions. -/
def longestScanFuel (dotall : Bool) (rules : List (List Atom × List Char)) :
    Nat → List Char → List Char
  | 0, _ => []
  | _ + 1, [] => []
  | n + 1, c :: s =>
    match longestFit dotall (c :: s) rules with
    | some r => r.2 ++ longestScanFuel dotall rules n ((c :: s).drop r.1.length)
    | none => c :: longestScanFuel dotall rules n s

/-- The table as one pass: at each position the word of the longest rule that fits takes
the place of its window and the scan resumes after it; where no rule fits, the character is
copied.  One position more than the text has is enough fuel (`longestScanFuel_congr`). -/
def longestScan (dotall : Bool) (rules : List (List Atom × List Char)) (s : List Char) :
    List Char :=
  longestScanFuel dotall rules (s.length + 1) s

section Scan

variable {rules : List (List Atom × List Char)} (hne : ∀ r ∈ rules, r.1 ≠ [])
include hne

theorem longestScanFuel_congr : ∀ (n m : Nat) (s : List Char), s.length < n → s.length < m →
    longestScanFuel dotall rules n s = longestScanFuel dotall rules m s
  | n + 1, m + 1, [], _, _ => rfl
  | n + 1, m + 1, c :: t, hn, hm => by
    simp only [longestScanFuel]
    split
    · next r hr =>
      have hpos := List.length_pos.mpr (hne r (longestFit_spec hr).1)
      have hlt : ((c :: t).drop r.1.length).length < t.length + 1 := by simp; omega
      simp only [List.length_cons, Nat.add_lt_add_iff_right] at hn hm
      rw [longestScanFuel_congr n m ((c :: t).drop r.1.length) (by omega) (by omega)]
    · rw [longestScanFuel_congr n m t (by simpa using hn) (by simpa using hm)]

/-- Where a rule is chosen, its word is written and the scan resumes after its window. -/
theorem longestScan_of_some {u : List Char} {r : List Atom × List Char}
    (h : longestFit dotall u rules = some r) :
    longestScan dotall rules u = r.2 ++ longestScan dotall rules (u.drop r.1.length) := by
  obtain ⟨hmem, hf⟩ := longestFit_spec h
  have hpos := List.length_pos.mpr (hne r hmem)
  match u, h, hf with
  | [], _, hf => exact absurd (length_le_of_fits hf) (Nat.not_le.mpr hpos)
  | c :: s, h, _ =>
    simp only [longestScan, longestScanFuel, h]
    exact congrArg (r.2 ++ ·) (longestScanFuel_congr hne _ _ _ (by simp; omega) (by simp))

/-- Where no rule fits, the character is copied. -/
theorem longestScan_of_none {c : Char} {s : List Char}
    (h : longestFit dotall (c :: s) rules = none) :
    longestScan dotall rules (c :: s) = c :: longestScan dotall rules s := by
  simp only [longestScan, longestScanFuel, h]
  exact congrArg (c :: ·) (longestScanFuel_congr hne _ _ _ (by simp) (by simp))

/-- A word at which no rule fits, at any of its positions, is copied whole. -/
theorem longestScan_append_of_inert {w : List Char}
    (hw : ∀ q ∈ rules, ∀ b, b <:+ w → b ≠ [] → ∀ y, fits dotall q.1 (b ++ y) = false)
    (y : List Char) : longestScan dotall rules (w ++ y) = w ++ longestScan dotall rules y := by
  induction w with
  | nil => rfl
  | cons c w ih =>
    have hc : longestFit dotall (c :: (w ++ y)) rules = none :=
      longestFit_eq_none.mpr fun q hq => hw q hq _ (List.suffix_refl _) (List.cons_ne_nil _ _) y
    rw [List.cons_append, longestScan_of_none hne hc,
      ih fun q hq b hb => hw q hq b (hb.trans (List.suffix_cons c w))]
    rfl

end Scan

@[simp] theorem longestScan_nil_rules : ∀ s : List Char, longestScan dotall [] s = s
  | [] => rfl
  | c :: s => by
    rw [longestScan_of_none (by simp) (rfl : longestFit dotall (c :: s) [] = none),
      longestScan_nil_rules s]

@[simp] theorem longestScan_nil (rules : List (List Atom × List Char)) :
    longestScan dotall rules [] = [] :=
  rfl

/-! ## Tables the scan stands for -/

/-- What a rule `r'` placed after `r` must respect, so that `r`'s `re.sub` does nothing the
longest-match scan would not do. -/
structure Later (dotall : Bool) (r r' : List Atom × List Char) : Prop where
  /-- Where both patterns fit, the earlier one is at least as long. -/
  le_of_fits : ∀ s, fits dotall r.1 s → fits dotall r'.1 s → r'.1.length ≤ r.1.length
  /-- No window of `r'` holds the start of a window of `r`. -/
  no_overlap : ∀ s, fits dotall r'.1 s → ∀ k, 0 < k → k < r'.1.length →
    fits dotall r.1 (s.drop k) = false
  /-- No window of `r'` starts inside the word `r` writes. -/
  inside : ∀ b, b <:+ r.2 → b ≠ [] → ∀ y, fits dotall r'.1 (b ++ y) = false
  /-- No window of `r'` starts before that word and reaches into it. -/
  left : ∀ x y, 0 < x.length → x.length < r'.1.length → fits dotall r'.1 (x ++ r.2 ++ y) = false

/-- A table of fixed-width rules with nonempty words in which every rule respects every
earlier one. -/
structure Sequential (dotall : Bool) (rules : List (List Atom × List Char)) : Prop where
  fixed : ∀ r ∈ rules, Fixed r.1
  word_ne_nil : ∀ r ∈ rules, r.2 ≠ []
  later : rules.Pairwise (Later dotall)

theorem Sequential.tail {r : List Atom × List Char} {rs : List (List Atom × List Char)}
    (h : Sequential dotall (r :: rs)) : Sequential dotall rs :=
  ⟨fun q hq => h.fixed q (.tail _ hq), fun q hq => h.word_ne_nil q (.tail _ hq),
    (List.pairwise_cons.mp h.later).2⟩

theorem Sequential.ne_nil {rules : List (List Atom × List Char)} (h : Sequential dotall rules) :
    ∀ r ∈ rules, r.1 ≠ [] :=
  fun r hr => (h.fixed r hr).ne_nil

/-- A `re.sub` of `r` creates no window of a later rule: where it fits after the
substitution, it fitted before. -/
theorem fits_of_fits_sub {r r' : List Atom × List Char} (hp : Fixed r.1) (hr : Later dotall r r')
    (hwne : r.2 ≠ []) (x y : List Char) (h : fits dotall r'.1 (x ++ sub dotall r.1 (fun _ => r.2) y)) :
    fits dotall r'.1 (x ++ y) := by
  match y with
  | [] => rwa [sub_nil_of_fixed hp] at h
  | d :: y =>
    by_cases hf : fits dotall r.1 (d :: y)
    · rw [sub_of_fits hp hf] at h
      rcases Nat.lt_or_ge x.length r'.1.length with hl | hl
      · obtain _ | ⟨e, x'⟩ := x
        · rw [List.nil_append, hr.inside _ (List.suffix_refl _) hwne] at h
          cases h
        · rw [← List.append_assoc, hr.left _ _ (by simp) hl] at h
          cases h
      · rwa [fits_append_of_le _ hl] at h ⊢
    · rw [sub_cons_of_not_fits hp (Bool.not_eq_true _ ▸ hf), ← List.singleton_append,
        ← List.append_assoc] at h
      have := fits_of_fits_sub hp hr hwne (x ++ [d]) y h
      rwa [List.append_assoc, List.singleton_append] at this
termination_by y.length

/-- Where `p` fits at none of the first `n` positions, `re.sub` copies them. -/
theorem sub_eq_take_append {p : List Atom} (hp : Fixed p) {repl : List Char → List Char} :
    ∀ (n : Nat) (t : List Char), n ≤ t.length → (∀ k < n, fits dotall p (t.drop k) = false) →
      sub dotall p repl t = t.take n ++ sub dotall p repl (t.drop n)
  | 0, _, _, _ => rfl
  | n + 1, c :: t, hn, h => by
    rw [sub_cons_of_not_fits hp (h 0 (Nat.succ_pos n)),
      sub_eq_take_append hp n t (by simpa using hn) fun k hk => h (k + 1) (by omega)]
    rfl

/-! ## Peeling off the first rule -/

section Peel

variable {r : List Atom × List Char} {rs : List (List Atom × List Char)}
  (h : Sequential dotall (r :: rs))
include h

theorem Sequential.later_head : ∀ q ∈ rs, Later dotall r q := (List.pairwise_cons.mp h.later).1

/-- A later rule that fits after the first rule's substitution fitted before it. -/
theorem Sequential.fits_of_sub {q : List Atom × List Char} (hq : q ∈ rs) (x y : List Char)
    (hf : fits dotall q.1 (x ++ sub dotall r.1 (fun _ => r.2) y)) : fits dotall q.1 (x ++ y) :=
  fits_of_fits_sub (h.fixed r (List.mem_cons_self _ _)) (h.later_head q hq)
    (h.word_ne_nil r (List.mem_cons_self _ _)) x y hf

/-- Where no later rule fits, none fits after the first rule's substitution either. -/
theorem Sequential.longestFit_sub_eq_none {c : Char} {s : List Char}
    (hl : longestFit dotall (c :: s) rs = none) :
    longestFit dotall (c :: sub dotall r.1 (fun _ => r.2) s) rs = none :=
  longestFit_eq_none.mpr fun q hq => Bool.eq_false_iff.mpr fun hq' =>
    absurd (h.fits_of_sub hq [c] s hq') (by simp [longestFit_eq_none.mp hl q hq])

/-- Where the first rule does not fit and a later rule is the longest that fits, the first
rule fits nowhere in that rule's window, so its substitution leaves the window as it is. -/
theorem Sequential.sub_eq_of_longestFit {u : List Char} {r' : List Atom × List Char}
    (hf : fits dotall r.1 u = false) (hl : longestFit dotall u rs = some r') :
    sub dotall r.1 (fun _ => r.2) u =
      u.take r'.1.length ++ sub dotall r.1 (fun _ => r.2) (u.drop r'.1.length) := by
  obtain ⟨hmem, hfit⟩ := longestFit_spec hl
  refine sub_eq_take_append (h.fixed r (List.mem_cons_self _ _)) _ _ (length_le_of_fits hfit)
    fun k hk => ?_
  rcases Nat.eq_zero_or_pos k with rfl | hk0
  · exact hf
  · exact (h.later_head r' hmem).no_overlap _ hfit k hk0 hk

/-- In that case the later rule is still the longest that fits after the substitution. -/
theorem Sequential.longestFit_sub_of_some {u : List Char} {r' : List Atom × List Char}
    (hf : fits dotall r.1 u = false) (hl : longestFit dotall u rs = some r') :
    longestFit dotall (sub dotall r.1 (fun _ => r.2) u) rs = some r' := by
  obtain ⟨-, hfit⟩ := longestFit_spec hl
  have hn := (List.length_take_of_le (length_le_of_fits hfit)).ge
  rw [h.sub_eq_of_longestFit hf hl]
  refine longestFit_of_imp (fun q hq hq' => ?_) hl ?_
  · simpa using h.fits_of_sub hq _ _ hq'
  · rwa [fits_append_of_le _ hn, ← fits_append_of_le (u.drop r'.1.length) hn,
      List.take_append_drop]

end Peel

/-- The first rule's `re.sub`, followed by the longest-match scan of the rest, is the
longest-match scan of the whole table. -/
theorem longestScan_cons_eq {r : List Atom × List Char} {rs : List (List Atom × List Char)}
    (h : Sequential dotall (r :: rs)) (t : List Char) :
    longestScan dotall (r :: rs) t = longestScan dotall rs (sub dotall r.1 (fun _ => r.2) t) := by
  have hp : Fixed r.1 := h.fixed r (List.mem_cons_self _ _)
  have hne := h.ne_nil
  have hne' := h.tail.ne_nil
  match t with
  | [] => rw [sub_nil_of_fixed hp]; rfl
  | c :: s =>
    by_cases hf : fits dotall r.1 (c :: s)
    · -- the first rule is the longest that fits here, and its word is inert for the rest
      have hc := longestFit_cons_of_fits hf fun q hq hq' => (h.later_head q hq).le_of_fits _ hf hq'
      have hpos := List.length_pos.mpr (hne r (List.mem_cons_self _ _))
      rw [longestScan_of_some hne hc, sub_of_fits hp hf,
        longestScan_append_of_inert hne' fun q hq => (h.later_head q hq).inside,
        longestScan_cons_eq h _]
    · have hf' : fits dotall r.1 (c :: s) = false := Bool.not_eq_true _ ▸ hf
      have hcons : longestFit dotall (c :: s) (r :: rs) = longestFit dotall (c :: s) rs :=
        longestFit_cons_of_not_fits hf'
      cases hl : longestFit dotall (c :: s) rs with
      | none =>
        -- no rule fits here, before the substitution or after it
        rw [sub_cons_of_not_fits hp hf', longestScan_of_none hne (hcons.trans hl),
          longestScan_of_none hne' (h.longestFit_sub_eq_none hl), longestScan_cons_eq h s]
      | some r' =>
        -- a later rule is the longest that fits here, before the substitution and after it
        obtain ⟨hmem, hfit⟩ := longestFit_spec hl
        have hpos := List.length_pos.mpr (hne' r' hmem)
        rw [longestScan_of_some hne (hcons.trans hl),
          longestScan_of_some hne' (h.longestFit_sub_of_some hf' hl), h.sub_eq_of_longestFit hf' hl,
          List.drop_left' (List.length_take_of_le (length_le_of_fits hfit)),
          longestScan_cons_eq h _]
termination_by t.length

/-- A table that respects its own order, applied one `re.sub` after another, is the
longest-match scan of the table. -/
theorem foldl_sub_eq_longestScan : ∀ {rules : List (List Atom × List Char)},
    Sequential dotall rules → ∀ t : List Char,
      rules.foldl (fun c r => sub dotall r.1 (fun _ => r.2) c) t = longestScan dotall rules t
  | [], _, t => (longestScan_nil_rules t).symm
  | _ :: _, h, t => by
    rw [List.foldl_cons, foldl_sub_eq_longestScan h.tail, longestScan_cons_eq h t]

/-! ## Tables whose names all begin alike

The conditions of `Sequential` speak of every text.  For a table whose patterns all begin
with one literal word `h` that occurs nowhere else in a pattern or a word, they follow from
facts about the patterns and the words alone (`Headed.sequential`), and those are decidable
by looking at each rule once, and at each pair only for `Compat`. -/

/-- Two atoms that admit a common character. -/
def Atom.meets (dotall : Bool) : Atom → Atom → Bool
  | .lit c, .lit d => c == d
  | .lit c, .cls k | .cls k, .lit c => k.test dotall c
  | _, _ => true

/-- Two fixed-width patterns laid over one text can both fit it: where both have an atom,
the two atoms meet. -/
def Compat (dotall : Bool) : List Atom → List Atom → Bool
  | a :: p, b :: q => a.meets dotall b && Compat dotall p q
  | _, _ => true

/-- The atoms of `p`, laid at the start of `b`, accept the characters they lie over: `p` can
fit a text that begins with `b`, or fits the start of `b`. -/
def fitsStart (dotall : Bool) : List Atom → List Char → Bool
  | a :: p, c :: b => a.accepts dotall c && fitsStart dotall p b
  | _, _ => true

section Compat

theorem Atom.meets_of_accepts {c : Char} : ∀ {a b : Atom}, a.accepts dotall c →
    b.accepts dotall c → a.meets dotall b
  | .lit _, .lit _, ha, hb => by simp_all [Atom.accepts, Atom.meets]
  | .lit _, .cls _, ha, hb | .cls _, .lit _, ha, hb => by simp_all [Atom.accepts, Atom.meets]
  | .cls _, .cls _, _, _ | .lit _, .star _, _, _ | .lit _, .plus _, _, _
  | .cls _, .star _, _, _ | .cls _, .plus _, _, _ | .star _, _, _, _ | .plus _, _, _, _ => rfl

/-- Two patterns that fit one text are compatible. -/
theorem compat_of_fits : ∀ {p q : List Atom} {s : List Char}, fits dotall p s →
    fits dotall q s → Compat dotall p q
  | [], _, _, _, _ | _ :: _, [], _, _, _ => rfl
  | _ :: _, _ :: _, [], hp, _ => by simp [fits] at hp
  | a :: p, b :: q, c :: s, hp, hq => by
    simp only [fits, Bool.and_eq_true] at hp hq
    simp [Compat, Atom.meets_of_accepts hp.1 hq.1, compat_of_fits hp.2 hq.2]

theorem compat_of_compat_append : ∀ {x p q : List Atom}, Compat dotall x (p ++ q) →
    Compat dotall x p
  | [], _, _, _ | _ :: _, [], _, _ => rfl
  | a :: x, b :: p, q, h => by
    simp only [List.cons_append, Compat, Bool.and_eq_true] at h
    simp [Compat, h.1, compat_of_compat_append h.2]

/-- A pattern laid over a literal word it accepts is compatible with it. -/
theorem compat_lits_of_fitsStart : ∀ {x : List Atom} {h : List Char}, fitsStart dotall x h →
    Compat dotall x (h.map .lit)
  | [], _, _ | _ :: _, [], _ => rfl
  | a :: x, c :: h, hf => by
    simp only [fitsStart, Bool.and_eq_true] at hf
    have ha : a.meets dotall (.lit c) := by
      cases a <;> simp_all [Atom.accepts, Atom.meets]
    simp [Compat, ha, compat_lits_of_fitsStart hf.2]

theorem fitsStart_of_fits : ∀ {p : List Atom} {b : List Char} (y : List Char),
    fits dotall p (b ++ y) → fitsStart dotall p b
  | [], _, _, _ | _ :: _, [], _, _ => rfl
  | a :: p, c :: b, y, h => by
    simp only [List.cons_append, fits, Bool.and_eq_true] at h
    simp [fitsStart, h.1, fitsStart_of_fits y h.2]

/-- A start laid over a word is also laid over each of its prefixes. -/
theorem fitsStart_anti_word : ∀ {p : List Atom} {u b : List Char}, u <+: b →
    fitsStart dotall p b → fitsStart dotall p u
  | [], _, _, _, _ | _ :: _, [], _, _, _ => rfl
  | _ :: _, _ :: _, [], hu, _ => absurd hu.length_le (by simp)
  | a :: p, c :: u, d :: b, hu, h => by
    obtain ⟨rfl, hu'⟩ := List.cons_prefix_cons.mp hu
    simp only [fitsStart, Bool.and_eq_true] at h ⊢
    exact ⟨h.1, fitsStart_anti_word hu' h.2⟩

/-- A prefix of a pattern laid over a word is laid over it too. -/
theorem fitsStart_anti_pattern : ∀ {p q : List Atom} {b : List Char}, q <+: p →
    fitsStart dotall p b → fitsStart dotall q b
  | _, [], _, _, _ | [], _ :: _, _, hq, _ => by
    first | rfl | exact absurd hq.length_le (by simp)
  | _ :: _, _ :: _, [], _, _ => rfl
  | a :: p, b :: q, c :: w, hq, h => by
    obtain ⟨rfl, hq'⟩ := List.cons_prefix_cons.mp hq
    simp only [fitsStart, Bool.and_eq_true] at h ⊢
    exact ⟨h.1, fitsStart_anti_pattern hq' h.2⟩

theorem fits_drop : ∀ (k : Nat) {p : List Atom} {s : List Char}, fits dotall p s →
    fits dotall (p.drop k) (s.drop k)
  | 0, _, _, h => h
  | _ + 1, [], _, _ => rfl
  | _ + 1, _ :: _, [], h => by simp [fits] at h
  | k + 1, _ :: _, _ :: _, h => by
    simp only [fits, Bool.and_eq_true] at h
    exact fits_drop k h.2

end Compat

/-- Every element of a list after the first is in its tail, so a table's rules placed after
another are in the table's tail. -/
theorem pairwise_mem_tail {α : Type} : ∀ l : List α, l.Pairwise fun _ b => b ∈ l.tail
  | [] => .nil
  | _ :: l => List.pairwise_cons.mpr ⟨fun _ h => h,
      (pairwise_mem_tail l).imp List.mem_of_mem_tail⟩

/-- A table whose patterns all begin with the literal word `h` and whose words all begin with
`u`, itself beginning with `h`, where `h` occurs in no pattern and no word after its start, no
pattern after the first fits the start of `u`, and of two compatible patterns the earlier is
at least as long. -/
structure Headed (dotall : Bool) (h u : List Char) (rules : List (List Atom × List Char)) :
    Prop where
  fixed : ∀ r ∈ rules, Fixed r.1
  word_ne_nil : ∀ r ∈ rules, r.2 ≠ []
  head_prefix : h <+: u
  pattern_head : ∀ r ∈ rules, h.map .lit <+: r.1
  word_head : ∀ r ∈ rules, u <+: r.2
  pattern_once : ∀ r ∈ rules, ∀ x ∈ r.1.tail.tails, x ≠ [] → Compat dotall x (h.map .lit) = false
  word_once : ∀ r ∈ rules, ∀ b ∈ r.2.tail.tails, b ≠ [] → fitsStart dotall (h.map .lit) b = false
  word_start : ∀ r ∈ rules.tail, fitsStart dotall r.1 u = false
  le_of_compat : rules.Pairwise fun r r' => Compat dotall r.1 r'.1 → r'.1.length ≤ r.1.length

instance (h u : List Char) (rules : List (List Atom × List Char)) :
    Decidable (Headed dotall h u rules) :=
  decidable_of_iff ((∀ r ∈ rules, Fixed r.1) ∧ (∀ r ∈ rules, r.2 ≠ []) ∧ h <+: u ∧
      (∀ r ∈ rules, h.map .lit <+: r.1) ∧ (∀ r ∈ rules, u <+: r.2) ∧
      (∀ r ∈ rules, ∀ x ∈ r.1.tail.tails, x ≠ [] → Compat dotall x (h.map .lit) = false) ∧
      (∀ r ∈ rules, ∀ b ∈ r.2.tail.tails, b ≠ [] → fitsStart dotall (h.map .lit) b = false) ∧
      (∀ r ∈ rules.tail, fitsStart dotall r.1 u = false) ∧
      rules.Pairwise fun r r' => Compat dotall r.1 r'.1 → r'.1.length ≤ r.1.length)
    ⟨fun h => ⟨h.1, h.2.1, h.2.2.1, h.2.2.2.1, h.2.2.2.2.1, h.2.2.2.2.2.1, h.2.2.2.2.2.2.1,
        h.2.2.2.2.2.2.2.1, h.2.2.2.2.2.2.2.2⟩,
      fun h => ⟨h.1, h.2, h.3, h.4, h.5, h.6, h.7, h.8, h.9⟩⟩

section Headed

variable {h u : List Char} {rules : List (List Atom × List Char)} (hH : Headed dotall h u rules)
include hH

/-- A proper nonempty end of a pattern is not compatible with `h`. -/
theorem Headed.drop_compat {r : List Atom × List Char} (hr : r ∈ rules) {k : Nat} (hk0 : 0 < k)
    (hk : k < r.1.length) : Compat dotall (r.1.drop k) (h.map .lit) = false := by
  refine hH.pattern_once r hr _ ((List.mem_tails _ _).mpr ?_) (by simpa using hk)
  obtain ⟨j, rfl⟩ := Nat.exists_eq_add_of_lt hk0
  rw [Nat.zero_add, ← List.drop_tail]
  exact List.drop_suffix _ _

/-- Every later rule respects every earlier one. -/
theorem Headed.later {r r' : List Atom × List Char} (hr : r ∈ rules) (hr' : r' ∈ rules)
    (ht : r' ∈ rules.tail) (hc : Compat dotall r.1 r'.1 → r'.1.length ≤ r.1.length) :
    Later dotall r r' where
  le_of_fits _ hp hq := hc (compat_of_fits hp hq)
  no_overlap s hq k hk0 hk := Bool.eq_false_iff.mpr fun hp => by
    obtain ⟨rest, hrest⟩ := hH.pattern_head r hr
    have := compat_of_compat_append (hrest ▸ compat_of_fits (fits_drop k hq) hp)
    rw [hH.drop_compat hr' hk0 hk] at this
    cases this
  inside b hb hb0 y := Bool.eq_false_iff.mpr fun hf => by
    have hs := fitsStart_of_fits y hf
    obtain ⟨c, w, hw⟩ := List.exists_cons_of_ne_nil (hH.word_ne_nil r hr)
    rw [hw] at hb
    rcases List.suffix_cons_iff.mp hb with rfl | hb'
    · -- a window at the start of the word
      have := fitsStart_anti_word (hw ▸ hH.word_head r hr) hs
      rw [hH.word_start r' ht] at this
      cases this
    · -- a window inside the word would find `h` there
      have := fitsStart_anti_pattern (hH.pattern_head r' hr') hs
      rw [hH.word_once r hr b ((List.mem_tails _ _).mpr (hw ▸ hb')) hb0] at this
      cases this
  left x y hx hl := Bool.eq_false_iff.mpr fun hf => by
    have hd := fits_drop x.length hf
    rw [List.append_assoc, List.drop_left] at hd
    have := compat_lits_of_fitsStart (fitsStart_anti_word (hH.head_prefix.trans (hH.word_head r hr))
      (fitsStart_of_fits y hd))
    rw [hH.drop_compat hr' hx hl] at this
    cases this

/-- A headed table is sequential. -/
theorem Headed.sequential : Sequential dotall rules :=
  ⟨hH.fixed, hH.word_ne_nil, (hH.le_of_compat.and (pairwise_mem_tail rules)).imp_of_mem
    fun hr hr' hc => hH.later hr hr' hc.2 hc.1⟩

end Headed

end SdkMigration.Regex
