import SdkMigration.Java.Rewrites

/-!
# The locator loop of `fix_locators`

Each rule of the `fix_locators` table turns `@Locate(`, a run of blanks and a legacy key such
as `id = ` into `@Locate(using = Strategy.ID, value = `.  Every rewritten locator begins with
`@Locate(u`, and no key begins with a blank or with `u`, so a rewrite never makes a legacy
locator, of its own key or of another's.  Two results follow, for every text:

* after the loop `re.search` finds no pattern of the table (`fixLocators_no_legacy`), whatever
  the `add_import_if_not_present` call before it did;
* the loop of fourteen `re.sub` calls is one `re.sub` of the alternation of the table's
  patterns (`locatorLoop_eq_subAlternation`): one left-to-right pass over the text.

Both rest on one fact about `re.sub` (`infix_sub`).  When every match is nonempty and every
replacement begins with a marker character `m` and holds no other, a word that begins with `m`
and holds no other, found in the output, either begins a replacement there or stood in the
input at a place where the pattern did not match.  Here the marker is `@`.
-/

namespace SdkMigration.Convert

open Regex

/-! ## Marked words in the output of `re.sub` -/

section Marked

variable {dotall : Bool} {p : List Atom} {repl : List Char → List Char} {m : Char}

/-- A pattern that begins with a literal consumes a character wherever it matches. -/
theorem matchAt_lit_cons_length {c : Char} {q : List Atom} :
    ∀ {s r : List Char}, matchAt dotall (.lit c :: q) s = some r → r.length < s.length
  | [], _, h => by simp [matchAt] at h
  | d :: s, r, h => by
    simp only [matchAt] at h
    split at h
    · exact Nat.lt_succ_of_le (matchAt_suffix dotall q s r h).length_le
    · cases h

theorem matchAt_nil_of_nonempty (hne : ∀ s r, matchAt dotall p s = some r → r.length < s.length) :
    matchAt dotall p [] = none :=
  Option.eq_none_iff_forall_not_mem.mpr fun r hr => Nat.not_lt_zero _ (hne [] r hr)

/-- A word without the marker that begins the output of `re.sub` begins its input. -/
theorem prefix_of_prefix_sub (hne : ∀ s r, matchAt dotall p s = some r → r.length < s.length)
    (hrepl : ∀ w, ∃ v, repl w = m :: v) :
    ∀ (t : List Char) {I : List Char}, m ∉ I → I <+: sub dotall p repl t → I <+: t
  | [], _, _, h => by rwa [sub_nil_of_none (matchAt_nil_of_nonempty hne)] at h
  | c :: t, I, hI, h => by
    cases hm : matchAt dotall p (c :: t) with
    | none =>
      rw [sub_cons_of_none hm] at h
      cases I with
      | nil => exact List.nil_prefix
      | cons d I =>
        obtain ⟨rfl, ht⟩ := List.cons_prefix_cons.mp h
        exact List.cons_prefix_cons.mpr
          ⟨rfl, prefix_of_prefix_sub hne hrepl t (fun h' => hI (List.mem_cons_of_mem _ h')) ht⟩
    | some r =>
      obtain ⟨v, hv⟩ := hrepl ((c :: t).take ((c :: t).length - r.length))
      rw [sub_of_some hm (hne _ _ hm), hv, List.cons_append] at h
      cases I with
      | nil => exact List.nil_prefix
      | cons d I =>
        obtain ⟨rfl, -⟩ := List.cons_prefix_cons.mp h
        exact absurd (List.mem_cons_self _ _) hI

/-- A word that begins with the marker and holds no other, found in the output of `re.sub`,
begins a replacement followed by the rest of the output, or stood in the input at a place
where the pattern did not match. -/
theorem infix_sub (hne : ∀ s r, matchAt dotall p s = some r → r.length < s.length)
    (hrepl : ∀ w, ∃ v, repl w = m :: v ∧ m ∉ v) {I : List Char} (hI : m ∉ I) :
    ∀ s, m :: I <:+: sub dotall p repl s →
      (∃ y r, y <:+ s ∧ matchAt dotall p y = some r ∧
        m :: I <+: repl (y.take (y.length - r.length)) ++ sub dotall p repl r) ∨
      ∃ y, y <:+ s ∧ matchAt dotall p y = none ∧ m :: I <+: y
  | [], h => by
    rw [sub_nil_of_none (matchAt_nil_of_nonempty hne), List.infix_nil] at h
    cases h
  | c :: t, h => by
    cases hm : matchAt dotall p (c :: t) with
    | none =>
      rw [sub_cons_of_none hm] at h
      rcases List.infix_cons_iff.mp h with h | h
      · obtain ⟨rfl, ht⟩ := List.cons_prefix_cons.mp h
        exact .inr ⟨_, List.suffix_refl _, hm, List.cons_prefix_cons.mpr
          ⟨rfl, prefix_of_prefix_sub hne (fun w => (hrepl w).imp fun _ h => h.1) t hI ht⟩⟩
      · exact (infix_sub hne hrepl hI t h).imp
          (fun ⟨y, r, hy, hr⟩ => ⟨y, r, hy.trans (List.suffix_cons c t), hr⟩)
          (fun ⟨y, hy, hr⟩ => ⟨y, hy.trans (List.suffix_cons c t), hr⟩)
    | some r =>
      have hlt := hne _ _ hm
      have hsuf := matchAt_suffix dotall p _ r hm
      obtain ⟨v, hv, hmv⟩ := hrepl ((c :: t).take ((c :: t).length - r.length))
      rw [sub_of_some hm hlt, hv, List.cons_append] at h
      rcases List.infix_cons_iff.mp h with h | h
      · exact .inl ⟨_, r, List.suffix_refl _, hm, by rw [hv, List.cons_append]; exact h⟩
      · exact (infix_sub hne hrepl hI r (cons_infix_of_infix_append hmv h)).imp
          (fun ⟨y, r', hy, hr⟩ => ⟨y, r', hy.trans hsuf, hr⟩)
          (fun ⟨y, hy, hr⟩ => ⟨y, hy.trans hsuf, hr⟩)
termination_by s => s.length

end Marked

/-! ## Legacy locators

`LegacyAt tail y` says that `y` begins with a legacy locator: `@Locate(`, a run of blanks, and
`tail`, a key and ` = `.  The table's patterns match exactly there (`legacyAt_of_matchAt`,
`matchAt_isSome_of_legacyAt`), as long as the tail does not begin with a blank. -/

/-- A pattern of the table read as what it matches: `@Locate(`, a run of blanks (`\s*`), and
`tail` literally. -/
def legacyPattern (tail : List Char) : List Atom :=
  "@Locate(".toList.map .lit ++ .star .space :: tail.map .lit

/-- The key and ` = ` of a table entry: its pattern after `@Locate\(\s*`. -/
def legacyTail (l : String × String) : List Char := l.1.toList.drop 12

/-- A legacy locator at the start of a text. -/
def LegacyAt (tail y : List Char) : Prop :=
  ∃ ws, (∀ c ∈ ws, isSpace c = true) ∧ "@Locate(".toList ++ ws ++ tail <+: y

/-- No legacy locator with `tail` anywhere in a text. -/
def NoLegacy (tail s : List Char) : Prop := ∀ y, y <:+ s → ¬LegacyAt tail y

section Legacy

variable {dotall : Bool} {tail y r : List Char}

theorem space_test : CharClass.test dotall .space = isSpace := rfl

/-- A run of literals matches its own word and leaves what follows. -/
theorem matchAt_lits_eq_some {w t : List Char} :
    matchAt dotall (w.map .lit) t = some r ↔ t = w ++ r := by
  rw [← List.append_nil (w.map Atom.lit), matchAt_append_of_fixed [] t (by simp [Atom.fixed]),
    fits_lits]
  split
  · next h =>
    obtain ⟨z, rfl⟩ := List.isPrefixOf_iff_prefix.mp h
    simp [matchAt]
  · next h =>
    refine iff_of_false (by simp) ?_
    rintro rfl
    exact h (List.isPrefixOf_iff_prefix.mpr (List.prefix_append w r))

/-- A pattern of the table consumes a character wherever it matches. -/
theorem legacyPattern_length (h : matchAt dotall (legacyPattern tail) y = some r) :
    r.length < y.length :=
  matchAt_lit_cons_length h

/-- What a pattern of the table matches is a legacy locator, and the matcher leaves the text
after it. -/
theorem matchAt_legacyPattern_sound (h : matchAt false (legacyPattern tail) y = some r) :
    ∃ ws, (∀ c ∈ ws, isSpace c = true) ∧ y = "@Locate(".toList ++ ws ++ tail ++ r := by
  rw [legacyPattern, matchAt_append_of_fixed _ _ (by decide), fits_lits] at h
  split at h
  · next hpre =>
    obtain ⟨z, rfl⟩ := List.isPrefixOf_iff_prefix.mp hpre
    rw [List.length_map, List.drop_left, matchAt.eq_4] at h
    obtain ⟨ws, t, rfl, hws, ht⟩ := starMatch_split z r h
    exact ⟨ws, hws, by rw [matchAt_lits_eq_some.mp ht]; simp⟩
  · cases h

/-- A pattern of the table matches at every legacy locator whose tail begins with a character
other than a blank, and leaves the text after it. -/
theorem matchAt_legacyPattern_complete {d : Char} {e ws : List Char} (hd : isSpace d = false)
    (hws : ∀ c ∈ ws, isSpace c = true) (r : List Char) :
    matchAt false (legacyPattern (d :: e)) ("@Locate(".toList ++ ws ++ (d :: e) ++ r) =
      some r := by
  have hnext : matchAt false ((d :: e).map .lit) (d :: e ++ r) = some r :=
    matchAt_lits_eq_some.mpr rfl
  rw [legacyPattern, matchAt_append_of_fixed _ _ (by decide), fits_lits,
    if_pos (List.isPrefixOf_iff_prefix.mpr ⟨ws ++ d :: e ++ r, by simp⟩), List.length_map,
    List.append_assoc, List.append_assoc, List.drop_left, matchAt.eq_4, space_test,
    starMatch_eq_some hnext ?_ ws hws]
  intro v w e' hv hsp
  obtain ⟨c, v, rfl⟩ := List.exists_cons_of_ne_nil hv
  obtain ⟨rfl, -⟩ := List.cons_eq_cons.mp (e'.trans (List.cons_append c v w)).symm
  simp [hd] at hsp

/-- A pattern of the table matches nowhere but at an `@`. -/
theorem matchAt_legacyPattern_of_ne {c : Char} {x : List Char} (hc : c ≠ '@') :
    matchAt dotall (legacyPattern tail) (c :: x) = none := by
  show matchAt dotall (.lit '@' :: _) (c :: x) = none
  simp only [matchAt, if_neg hc]

theorem matchAt_legacyPattern_nil : matchAt dotall (legacyPattern tail) [] = none := by
  show matchAt dotall (.lit '@' :: _) [] = none
  rfl

/-- The part of a legacy locator after its `@` holds no `@`. -/
theorem at_not_mem_legacy {ws : List Char} (hws : ∀ c ∈ ws, isSpace c = true)
    (ht : '@' ∉ tail) : '@' ∉ "Locate(".toList ++ ws ++ tail := by
  simp only [List.mem_append, not_or]
  exact ⟨⟨by decide, fun h => absurd (hws _ h) (by decide)⟩, ht⟩

theorem legacyAt_of_matchAt (h : matchAt false (legacyPattern tail) y = some r) :
    LegacyAt tail y :=
  let ⟨ws, hws, e⟩ := matchAt_legacyPattern_sound h
  ⟨ws, hws, r, e.symm⟩

theorem matchAt_isSome_of_legacyAt {d : Char} {e : List Char} (hd : isSpace d = false)
    (h : LegacyAt (d :: e) y) : (matchAt false (legacyPattern (d :: e)) y).isSome := by
  obtain ⟨ws, hws, r, rfl⟩ := h
  rw [matchAt_legacyPattern_complete hd hws r]
  rfl

end Legacy

/-! ## One rule of the table

A rule's rewrite makes no legacy locator (`noLegacy_sub`): the marker `@` begins every legacy
locator and every rewritten one, which holds no other `@`, and the two differ at their ninth
character (`not_legacy_at_rewritten`), so a legacy locator in the output stood in the input. -/

/-- What the argument needs of a tail: it begins with neither a blank nor `u`, and holds no
`@`. -/
def LegacyTail (tail : List Char) : Prop :=
  (∃ d ∈ tail.head?, isSpace d = false ∧ d ≠ 'u') ∧ '@' ∉ tail

instance (tail : List Char) : Decidable (LegacyTail tail) :=
  inferInstanceAs (Decidable (_ ∧ _))

section Rule

variable {tail tail' R s : List Char}

/-- A legacy locator does not begin a rewritten one: after `@Locate(` the one has a blank or
its key, the other `u`. -/
theorem not_legacy_at_rewritten {ws z : List Char} (ht : LegacyTail tail)
    (hws : ∀ c ∈ ws, isSpace c = true) (hR : "@Locate(u".toList <+: R) :
    ¬"@Locate(".toList ++ ws ++ tail <+: R ++ z := by
  intro h
  obtain ⟨⟨d, hd, -, hdu⟩, -⟩ := ht
  obtain ⟨c, hc, hcu⟩ : ∃ c, "@Locate(".toList ++ [c] <+: "@Locate(".toList ++ ws ++ tail ∧
      c ≠ 'u' := by
    cases ws with
    | nil => exact ⟨d, ⟨tail.tail, by rw [List.eq_cons_of_mem_head? hd]; simp⟩, hdu⟩
    | cons w ws =>
      exact ⟨w, ⟨ws ++ tail, by simp⟩,
        fun e => absurd (e ▸ hws w (List.mem_cons_self _ _)) (by decide)⟩
  have hu : "@Locate(".toList ++ ['u'] <+: R ++ z := hR.trans (List.prefix_append R z)
  have e := (List.prefix_of_prefix_length_le (hc.trans h) hu (by simp)).eq_of_length (by simp)
  exact hcu (List.singleton_inj.mp (List.append_cancel_left e))

/-- A rewrite by a rule whose pattern begins with `@` and whose replacement begins with
`@Locate(u` and holds no other `@` makes no legacy locator with a tail `tail'`: each one in
the output stood in the input at a place where the rule did not match. -/
theorem noLegacy_sub (ht' : LegacyTail tail') (hR : "@Locate(u".toList <+: R) (hR' : '@' ∉ R.tail)
    (hs : ∀ y, y <:+ s → LegacyAt tail' y → (matchAt false (legacyPattern tail) y).isSome) :
    NoLegacy tail' (sub false (legacyPattern tail) (fun _ => R) s) := by
  rintro y hy ⟨ws, hws, hpre⟩
  obtain ⟨z, rfl⟩ := hR
  rcases infix_sub (fun _ _ => legacyPattern_length) (fun _ => ⟨_, rfl, hR'⟩)
      (at_not_mem_legacy hws ht'.2) s
      (hpre.isInfix.trans hy.isInfix) with ⟨_, _, -, -, h⟩ | ⟨y', hy', hm, h⟩
  · exact not_legacy_at_rewritten ht' hws (List.prefix_append _ z) h
  · simpa [hm] using hs y' hy' ⟨ws, hws, h⟩

/-- A rule's rewrite leaves no legacy locator of its own. -/
theorem noLegacy_sub_self (ht : LegacyTail tail) (hR : "@Locate(u".toList <+: R)
    (hR' : '@' ∉ R.tail) (s : List Char) :
    NoLegacy tail (sub false (legacyPattern tail) (fun _ => R) s) :=
  noLegacy_sub ht hR hR' fun _ _ h => by
    obtain ⟨⟨d, hd, hsp, -⟩, -⟩ := ht
    rw [List.eq_cons_of_mem_head? hd] at h ⊢
    exact matchAt_isSome_of_legacyAt hsp h

/-- A rule's rewrite makes no legacy locator of another rule. -/
theorem noLegacy_sub_of_noLegacy (ht' : LegacyTail tail') (hR : "@Locate(u".toList <+: R)
    (hR' : '@' ∉ R.tail) (h : NoLegacy tail' s) :
    NoLegacy tail' (sub false (legacyPattern tail) (fun _ => R) s) :=
  noLegacy_sub ht' hR hR' fun y hy hl => absurd hl (h y hy)

end Rule

/-! ## The loop over the table -/

/-- What the argument needs of a table entry: its pattern is `legacyPattern` of its tail, the
tail satisfies `LegacyTail`, and the replacement begins with `@Locate(u` and holds no other
`@`. -/
def LegacyRule (l : String × String) : Prop :=
  parse l.1.toList = legacyPattern (legacyTail l) ∧ LegacyTail (legacyTail l) ∧
    "@Locate(u".toList <+: ("@Locate(" ++ l.2).toList ∧ '@' ∉ ("@Locate(" ++ l.2).toList.tail

instance (l : String × String) : Decidable (LegacyRule l) :=
  inferInstanceAs (Decidable (_ ∧ _))

theorem locators_legacyRule : ∀ l ∈ locators, LegacyRule l := by
  decide

section Loop

variable {ls : List (String × String)}

/-- The rewrite loop of `fix_locators`, over any list of entries. -/
theorem foldl_locators_cons (l : String × String) (c : List Char) :
    (l :: ls).foldl (fun c l => reSub l.1 ("@Locate(" ++ l.2) c) c =
      ls.foldl (fun c l => reSub l.1 ("@Locate(" ++ l.2) c)
        (sub false (parse l.1.toList) (fun _ => ("@Locate(" ++ l.2).toList) c) :=
  rfl

/-- The loop makes no legacy locator of a tail that the text lacks. -/
theorem noLegacy_foldl_of_noLegacy {tail : List Char} (ht : LegacyTail tail) :
    ∀ {ls : List (String × String)}, (∀ l ∈ ls, LegacyRule l) → ∀ {c : List Char},
      NoLegacy tail c → NoLegacy tail (ls.foldl (fun c l => reSub l.1 ("@Locate(" ++ l.2) c) c)
  | [], _, _, h => h
  | l :: _, hls, _, h => by
    obtain ⟨hp, -, hR, hR'⟩ := hls l (List.mem_cons_self _ _)
    rw [foldl_locators_cons, hp]
    exact noLegacy_foldl_of_noLegacy ht (fun l' hl' => hls l' (List.mem_cons_of_mem _ hl'))
      (noLegacy_sub_of_noLegacy ht hR hR' h)

/-- After the loop, no entry's legacy locator is left. -/
theorem noLegacy_foldl : ∀ {ls : List (String × String)}, (∀ l ∈ ls, LegacyRule l) →
    ∀ (c : List Char), ∀ l ∈ ls,
      NoLegacy (legacyTail l) (ls.foldl (fun c l => reSub l.1 ("@Locate(" ++ l.2) c) c)
  | l :: ls, hls, c, l', hl' => by
    have hrest : ∀ l ∈ ls, LegacyRule l := fun l' hl' => hls l' (List.mem_cons_of_mem _ hl')
    obtain ⟨hp, ht, hR, hR'⟩ := hls l (List.mem_cons_self _ _)
    rw [foldl_locators_cons, hp]
    rcases List.mem_cons.mp hl' with rfl | hl'
    · exact noLegacy_foldl_of_noLegacy ht hrest (noLegacy_sub_self ht hR hR' c)
    · exact noLegacy_foldl hrest _ l' hl'

end Loop

/-- After `fix_locators`, `re.search` finds no pattern of its table in the text: the loop
rewrites every legacy locator, and no rewrite makes one, of its own key or another's. -/
theorem fixLocators_no_legacy (contents : List Char) :
    ∀ l ∈ locators, search false (parse l.1.toList) (fixLocators contents) = none := by
  intro l hl
  have hfree : NoLegacy (legacyTail l) (fixLocators contents) := by
    unfold fixLocators
    exact noLegacy_foldl locators_legacyRule _ l hl
  rw [(locators_legacyRule l hl).1]
  exact search_eq_none_of_forall fun y hy => Option.eq_none_iff_forall_not_mem.mpr fun _ hr =>
    hfree y hy (legacyAt_of_matchAt hr)

theorem fixLocators_no_legacy_id :
    ("@Locate\\(\\s*id = ", "using = Strategy.ID, value = ") ∈ locators ∧
      search false (parse "@Locate\\(\\s*id = ".toList)
        (fixLocators "@Locate(\n  id = \"login\")".toList) = none :=
  ⟨List.mem_cons_self _ _, fixLocators_no_legacy "@Locate(\n  id = \"login\")".toList
    ("@Locate\\(\\s*id = ", "using = Strategy.ID, value = ") (List.mem_cons_self _ _)⟩

/-! ## The loop as one pass

The loop of `fix_locators` runs one `re.sub` per entry of its table.  Read as one pass, it is
one `re.sub` of the alternation of the table's patterns, each match replaced by its own entry's
new form (`subAlternation`), and the two agree on every text (`locatorLoop_eq_subAlternation`).
A rewrite makes no legacy locator of a later entry and carries those already there along
unchanged (`firstMatch_cons_sub`), so the later entries find what the one pass finds. -/

/-- The first alternative of a table that matches at the start of a text: its replacement and
the text after its match. -/
def firstMatch (dotall : Bool) (rules : List (List Atom × List Char)) (s : List Char) :
    Option (List Char × List Char) :=
  rules.findSome? fun rule => (matchAt dotall rule.1 s).map (rule.2, ·)

/-- `re.sub` of the alternation `p₁|…|pₙ` of a table of patterns, each match replaced by the
text of its own alternative.  At each place the first alternative that matches wins, as in
Python's alternation, and an empty match is replaced and the next character copied, as in
`re.sub`. -/
def subAlternation (dotall : Bool) (rules : List (List Atom × List Char)) :
    List Char → List Char
  | [] =>
    match firstMatch dotall rules [] with
    | some (R, _) => R
    | none => []
  | c :: t =>
    match firstMatch dotall rules (c :: t) with
    | some (R, r) =>
      if r.length < t.length + 1 then R ++ subAlternation dotall rules r
      else R ++ c :: subAlternation dotall rules t
    | none => c :: subAlternation dotall rules t
termination_by s => s.length

/-- An entry of the table as an alternative: its pattern, and the text that replaces a
match. -/
def locatorRule (l : String × String) : List Atom × List Char :=
  (parse l.1.toList, ("@Locate(" ++ l.2).toList)

section Alternation

variable {dotall : Bool} {rules : List (List Atom × List Char)} {c : Char} {t R r : List Char}

theorem firstMatch_cons_of_none {rule : List Atom × List Char} {s : List Char}
    (h : matchAt dotall rule.1 s = none) :
    firstMatch dotall (rule :: rules) s = firstMatch dotall rules s := by
  simp [firstMatch, List.findSome?_cons, h]

theorem firstMatch_cons_of_some {rule : List Atom × List Char} {s : List Char}
    (h : matchAt dotall rule.1 s = some r) :
    firstMatch dotall (rule :: rules) s = some (rule.2, r) := by
  simp [firstMatch, List.findSome?_cons, h]

theorem subAlternation_nil_of_none (h : firstMatch dotall rules [] = none) :
    subAlternation dotall rules [] = [] := by
  rw [subAlternation, h]

theorem subAlternation_cons_of_none (h : firstMatch dotall rules (c :: t) = none) :
    subAlternation dotall rules (c :: t) = c :: subAlternation dotall rules t := by
  rw [subAlternation, h]

theorem subAlternation_cons_of_some (h : firstMatch dotall rules (c :: t) = some (R, r))
    (hlt : r.length < t.length + 1) :
    subAlternation dotall rules (c :: t) = R ++ subAlternation dotall rules r := by
  rw [subAlternation, h]
  exact if_pos hlt

/-- One pass with no alternatives copies the text. -/
theorem subAlternation_nil_rules : ∀ s, subAlternation dotall [] s = s
  | [] => subAlternation_nil_of_none rfl
  | c :: t => by
    rw [subAlternation_cons_of_none (show firstMatch dotall [] (c :: t) = none from rfl),
      subAlternation_nil_rules t]

/-- One pass copies a prefix at none of whose positions an alternative matches. -/
theorem subAlternation_append_of_none {x : List Char} :
    ∀ {u : List Char}, (∀ z, z <:+ u → z ≠ [] → firstMatch dotall rules (z ++ x) = none) →
      subAlternation dotall rules (u ++ x) = u ++ subAlternation dotall rules x
  | [], _ => rfl
  | c :: u, h => by
    have hc : firstMatch dotall rules (c :: (u ++ x)) = none :=
      h _ (List.suffix_refl _) (List.cons_ne_nil _ _)
    rw [List.cons_append, subAlternation_cons_of_none hc,
      subAlternation_append_of_none fun z hz hne => h z (hz.trans (List.suffix_cons c u)) hne]
    rfl

/-- The one-pass reading of a single `re.sub` is that `re.sub`. -/
theorem subAlternation_singleton (p : List Atom) (R : List Char) :
    ∀ s, subAlternation dotall [(p, R)] s = sub dotall p (fun _ => R) s
  | [] => by
    cases h : matchAt dotall p [] with
    | none =>
      rw [subAlternation_nil_of_none (by rw [firstMatch_cons_of_none h]; rfl), sub_nil_of_none h]
    | some r =>
      rw [subAlternation, firstMatch_cons_of_some h, sub, scan_nil, h]
      simp
  | c :: t => by
    cases h : matchAt dotall p (c :: t) with
    | none =>
      rw [subAlternation_cons_of_none (by rw [firstMatch_cons_of_none h]; rfl), sub_cons_of_none h,
        subAlternation_singleton p R t]
    | some r =>
      have hsuf := matchAt_suffix dotall p _ r h
      by_cases hlt : r.length < t.length + 1
      · rw [subAlternation_cons_of_some (firstMatch_cons_of_some h) hlt, sub_of_some h hlt,
          subAlternation_singleton p R r]
      · obtain rfl : r = c :: t := hsuf.eq_of_length (le_antisymm hsuf.length_le (by simpa using hlt))
        rw [subAlternation, firstMatch_cons_of_some h, sub, scan_cons_of_empty h]
        simp only [List.length_cons, lt_irrefl, if_false, List.flatMap_cons]
        rw [subAlternation_singleton p R t]
        rfl
termination_by s => s.length

theorem findSome?_eq_map {α β : Type} {f g : α → Option β} (k : β → β) :
    ∀ {l : List α}, (∀ a ∈ l, g a = (f a).map k) → l.findSome? g = (l.findSome? f).map k
  | [], _ => rfl
  | a :: l, h => by
    rw [List.findSome?_cons, List.findSome?_cons, h a (List.mem_cons_self _ _)]
    cases f a with
    | some b => rfl
    | none => exact findSome?_eq_map k fun a' ha' => h a' (List.mem_cons_of_mem _ ha')

end Alternation

section Commute

variable {tail R : List Char} {ls : List (String × String)}

/-- Rewriting the text after a character keeps every legacy locator that the character begins,
with the rewrite carried into the text after it, and makes no new one there. -/
theorem matchAt_legacyPattern_cons_sub {tail' : List Char} (ht' : LegacyTail tail')
    {repl : List Char → List Char} (hrepl : ∀ w, ∃ v, repl w = '@' :: v) (c : Char)
    (t : List Char) :
    matchAt false (legacyPattern tail') (c :: sub false (legacyPattern tail) repl t) =
      (matchAt false (legacyPattern tail') (c :: t)).map (sub false (legacyPattern tail) repl) := by
  obtain ⟨⟨d, hd, hsp, -⟩, hat⟩ := ht'
  obtain ⟨e, rfl⟩ : ∃ e, tail' = d :: e := ⟨_, List.eq_cons_of_mem_head? hd⟩
  cases h : matchAt false (legacyPattern (d :: e)) (c :: t) with
  | some r =>
    obtain ⟨ws, hws, ht⟩ := matchAt_legacyPattern_sound h
    have ht : c :: t = '@' :: ("Locate(".toList ++ ws ++ d :: e ++ r) := ht
    obtain ⟨rfl, rfl⟩ := List.cons_eq_cons.mp ht
    have hskip : ∀ z, z <:+ "Locate(".toList ++ ws ++ d :: e → z ≠ [] →
        matchAt false (legacyPattern tail) (z ++ r) = none := by
      intro z hz hne
      obtain ⟨c', z, rfl⟩ := List.exists_cons_of_ne_nil hne
      exact matchAt_legacyPattern_of_ne fun hc =>
        at_not_mem_legacy hws hat (hc ▸ hz.subset (List.mem_cons_self _ _))
    rw [sub_append_of_none hskip]
    exact matchAt_legacyPattern_complete hsp hws _
  | none =>
    cases h' : matchAt false (legacyPattern (d :: e)) (c :: sub false (legacyPattern tail) repl t)
      with
    | none => rfl
    | some r' =>
      obtain ⟨ws, hws, ht⟩ := matchAt_legacyPattern_sound h'
      have ht : c :: sub false (legacyPattern tail) repl t =
          '@' :: ("Locate(".toList ++ ws ++ d :: e ++ r') := ht
      obtain ⟨rfl, hst⟩ := List.cons_eq_cons.mp ht
      obtain ⟨r, rfl⟩ := prefix_of_prefix_sub (fun _ _ => legacyPattern_length) hrepl t
        (at_not_mem_legacy hws hat) ⟨r', hst.symm⟩
      have hm : matchAt false (legacyPattern (d :: e))
          ('@' :: ("Locate(".toList ++ ws ++ d :: e ++ r)) = some r :=
        matchAt_legacyPattern_complete hsp hws r
      exact absurd (h.symm.trans hm) (by simp)

/-- No pattern of the table matches inside a rewritten locator. -/
theorem matchAt_legacyPattern_rewritten {tail' : List Char} (ht' : LegacyTail tail')
    (hR : "@Locate(u".toList <+: R) (hR' : '@' ∉ R.tail) (x : List Char) :
    ∀ z, z <:+ R → z ≠ [] → matchAt false (legacyPattern tail') (z ++ x) = none := by
  obtain ⟨w, rfl⟩ := hR
  have hR0 : "@Locate(u".toList ++ w = '@' :: ("Locate(u".toList ++ w) := rfl
  rw [hR0] at hR' ⊢
  intro z hz hne
  rcases List.suffix_cons_iff.mp hz with rfl | hz
  · cases hm : matchAt false (legacyPattern tail') ('@' :: ("Locate(u".toList ++ w) ++ x) with
    | none => rfl
    | some r =>
      obtain ⟨ws, hws, e⟩ := matchAt_legacyPattern_sound hm
      exact absurd ⟨r, e.symm⟩
        (not_legacy_at_rewritten ht' hws (List.prefix_append "@Locate(u".toList w))
  · obtain ⟨c', z, rfl⟩ := List.exists_cons_of_ne_nil hne
    exact matchAt_legacyPattern_of_ne fun hc => hR' (hc ▸ hz.subset (List.mem_cons_self _ _))

variable (hls : ∀ l ∈ ls, LegacyRule l)

include hls

theorem firstMatch_locators_length {s r : List Char}
    (h : firstMatch false (ls.map locatorRule) s = some (R, r)) : r.length < s.length := by
  obtain ⟨rule, hrule, hm⟩ := List.exists_of_findSome?_eq_some h
  obtain ⟨l, hl, rfl⟩ := List.mem_map.mp hrule
  obtain ⟨r', hr', e⟩ := Option.map_eq_some'.mp hm
  cases e
  rw [locatorRule, (hls l hl).1] at hr'
  exact legacyPattern_length hr'

theorem firstMatch_locators_nil : firstMatch false (ls.map locatorRule) [] = none :=
  List.findSome?_eq_none_iff.mpr fun rule hrule => by
    obtain ⟨l, hl, rfl⟩ := List.mem_map.mp hrule
    rw [locatorRule, (hls l hl).1, matchAt_legacyPattern_nil]
    rfl

/-- No entry's pattern matches inside a rewritten locator. -/
theorem firstMatch_locators_rewritten (hR : "@Locate(u".toList <+: R) (hR' : '@' ∉ R.tail)
    (x : List Char) :
    ∀ z, z <:+ R → z ≠ [] → firstMatch false (ls.map locatorRule) (z ++ x) = none :=
  fun z hz hne => List.findSome?_eq_none_iff.mpr fun rule hrule => by
    obtain ⟨l, hl, rfl⟩ := List.mem_map.mp hrule
    rw [locatorRule, (hls l hl).1, matchAt_legacyPattern_rewritten (hls l hl).2.1 hR hR' x z hz hne]
    rfl

/-- Rewriting the text after a character by a rule whose replacement begins with `@` changes
which entry matches there in nothing, and carries the rewrite into the text after its match. -/
theorem firstMatch_locators_cons_sub (hR : "@Locate(u".toList <+: R) (c : Char) (t : List Char) :
    firstMatch false (ls.map locatorRule) (c :: sub false (legacyPattern tail) (fun _ => R) t) =
      (firstMatch false (ls.map locatorRule) (c :: t)).map
        (Prod.map id (sub false (legacyPattern tail) (fun _ => R))) := by
  obtain ⟨w, rfl⟩ := hR
  have hrepl : ∀ x, ∃ v, (fun _ : List Char => "@Locate(u".toList ++ w) x = '@' :: v :=
    fun _ => ⟨_, rfl⟩
  refine findSome?_eq_map _ fun rule hrule => ?_
  obtain ⟨l, hl, rfl⟩ := List.mem_map.mp hrule
  dsimp only [locatorRule]
  rw [(hls l hl).1, matchAt_legacyPattern_cons_sub (hls l hl).2.1 hrepl c t, Option.map_map,
    Option.map_map]
  rfl

/-- One `re.sub` of a rule whose replacement begins with `@Locate(u` and holds no other `@`,
followed by the one pass of the entries, is the one pass of the rule and the entries. -/
theorem subAlternation_sub (hR : "@Locate(u".toList <+: R) (hR' : '@' ∉ R.tail) :
    ∀ s, subAlternation false (ls.map locatorRule)
        (sub false (legacyPattern tail) (fun _ => R) s) =
      subAlternation false ((legacyPattern tail, R) :: ls.map locatorRule) s
  | [] => by
    rw [sub_nil_of_none matchAt_legacyPattern_nil,
      subAlternation_nil_of_none (firstMatch_locators_nil hls),
      subAlternation_nil_of_none (by
        rw [firstMatch_cons_of_none matchAt_legacyPattern_nil]; exact firstMatch_locators_nil hls)]
  | c :: t => by
    cases hm : matchAt false (legacyPattern tail) (c :: t) with
    | some r =>
      have hlt := legacyPattern_length hm
      rw [sub_of_some hm hlt,
        subAlternation_append_of_none (firstMatch_locators_rewritten hls hR hR' _),
        subAlternation_sub hR hR' r, subAlternation_cons_of_some (firstMatch_cons_of_some hm) hlt]
    | none =>
      have hsub : firstMatch false (ls.map locatorRule)
          (c :: sub false (legacyPattern tail) (fun _ => R) t) = _ :=
        firstMatch_locators_cons_sub hls hR c t
      rw [sub_cons_of_none hm]
      cases hf : firstMatch false (ls.map locatorRule) (c :: t) with
      | none =>
        rw [hf, Option.map_none'] at hsub
        rw [subAlternation_cons_of_none hsub,
          subAlternation_cons_of_none (by rw [firstMatch_cons_of_none hm, hf]),
          subAlternation_sub hR hR' t]
      | some m =>
        obtain ⟨R', r⟩ := m
        rw [hf, Option.map_some'] at hsub
        have hlt := firstMatch_locators_length hls hf
        rw [subAlternation_cons_of_some hsub (firstMatch_locators_length hls hsub),
          subAlternation_cons_of_some (by rw [firstMatch_cons_of_none hm, hf]) hlt]
        exact congrArg _ (subAlternation_sub hR hR' r)
termination_by s => s.length

end Commute

/-- Over entries that satisfy `LegacyRule`, the loop of `re.sub` calls is one pass. -/
theorem foldl_reSub_eq_subAlternation : ∀ {ls : List (String × String)},
    (∀ l ∈ ls, LegacyRule l) → ∀ s,
      ls.foldl (fun c l => reSub l.1 ("@Locate(" ++ l.2) c) s =
        subAlternation false (ls.map locatorRule) s
  | [], _, s => (subAlternation_nil_rules s).symm
  | l :: ls, hls, s => by
    have hrest : ∀ l ∈ ls, LegacyRule l := fun l' hl' => hls l' (List.mem_cons_of_mem _ hl')
    obtain ⟨hp, -, hR, hR'⟩ := hls l (List.mem_cons_self _ _)
    rw [foldl_locators_cons, foldl_reSub_eq_subAlternation hrest, hp,
      subAlternation_sub hrest hR hR', List.map_cons, locatorRule, hp]

/-- The loop of `fix_locators` is one pass: running the table's `re.sub` calls in turn gives
what one `re.sub` of the alternation of its patterns gives, each match replaced by its own
entry's new form. -/
theorem locatorLoop_eq_subAlternation (contents : List Char) :
    locators.foldl (fun c l => reSub l.1 ("@Locate(" ++ l.2) c) contents =
      subAlternation false (locators.map locatorRule) contents :=
  foldl_reSub_eq_subAlternation locators_legacyRule contents

end SdkMigration.Convert
