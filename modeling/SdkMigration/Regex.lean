import SdkMigration.Text

/-!
# Python regular expressions, as far as the scripts use them

Every pattern in the scripts is a sequence of literal characters (some escaped: `\(`, `\)`,
`\$`), the classes `.` and `\s`, the greedy quantifiers `*` and `+` applied to a class, and
groups that are never quantified (`()` in the accessor patterns, `(</dependencies>)` in the
last `pom.xml` rule).  A pattern is therefore a list of `Atom`s, and `parse` reads the
source's pattern string into one.

`matchAt` is the backtracking matcher of Python's `re` at one position: a greedy quantifier
tries its longest run first and gives back one character at a time, and the first way the
rest of the pattern matches wins.  `search` is `re.search`, returning the text before,
inside and after the leftmost match, and `sub` is `re.sub`.

## Honest boundary

* `re.MULTILINE` changes only `^` and `$`, which no pattern uses, so only `re.DOTALL` is a
  parameter (`dotall`).
* `parse` drops groups.  The one back-reference of the scripts, `\1` in the last `pom.xml`
  rule, names a group that spans the whole pattern, so a replacement is a function of the
  matched text.
-/

namespace SdkMigration.Regex

/-- The two character classes of the scripts' patterns: `.` and `\s`. -/
inductive CharClass
  | any
  | space
deriving DecidableEq, Repr

/-- `.` admits every character but a newline, and a newline too under `re.DOTALL`; `\s`
admits what `str.isspace` admits. -/
def CharClass.test (dotall : Bool) : CharClass → Char → Bool
  | .any, c => dotall || c != '\n'
  | .space, c => isSpace c

/-- One element of a pattern: a literal character, a class, or a class under greedy `*` or
`+`. -/
inductive Atom
  | lit (c : Char)
  | cls (k : CharClass)
  | star (k : CharClass)
  | plus (k : CharClass)
deriving DecidableEq, Repr

/-- Python's pattern syntax, restricted to the constructs of the scripts' patterns. -/
def parse : List Char → List Atom
  | [] => []
  | '\\' :: 's' :: '*' :: r => .star .space :: parse r
  | '\\' :: 's' :: '+' :: r => .plus .space :: parse r
  | '\\' :: 's' :: r => .cls .space :: parse r
  | '\\' :: c :: r => .lit c :: parse r
  | '.' :: '*' :: r => .star .any :: parse r
  | '.' :: '+' :: r => .plus .any :: parse r
  | '.' :: r => .cls .any :: parse r
  | '(' :: r => parse r
  | ')' :: r => parse r
  | c :: r => .lit c :: parse r

/-- A greedy `k*`: try the longest run the class admits first, then give back one character
at a time, handing each remainder to the rest of the pattern `next`. -/
def starMatch (p : Char → Bool) (next : List Char → Option (List Char)) :
    List Char → Option (List Char)
  | [] => next []
  | c :: s => if p c then (starMatch p next s <|> next (c :: s)) else next (c :: s)

/-- The first match of a pattern at the start of a text, in Python's backtracking order;
`some r` leaves the remainder `r` after the match. -/
def matchAt (dotall : Bool) : List Atom → List Char → Option (List Char)
  | [], s => some s
  | .lit c :: p, d :: s => if d = c then matchAt dotall p s else none
  | .cls k :: p, d :: s => if k.test dotall d then matchAt dotall p s else none
  | .star k :: p, s => starMatch (k.test dotall) (matchAt dotall p) s
  | .plus k :: p, d :: s =>
      if k.test dotall d then starMatch (k.test dotall) (matchAt dotall p) s else none
  | _ :: _, [] => none

/-- What `re.search` finds: the text before the leftmost match, the match itself
(`group()`), and the text after it. -/
structure Found where
  before : List Char
  group : List Char
  after : List Char
deriving DecidableEq, Repr

/-- `re.search`: the leftmost position where the pattern matches. -/
def search (dotall : Bool) (p : List Atom) : List Char → Option Found
  | [] => (matchAt dotall p []).map fun r => ⟨[], [], r⟩
  | c :: t =>
    match matchAt dotall p (c :: t) with
    | some r => some ⟨[], (c :: t).take ((c :: t).length - r.length), r⟩
    | none => (search dotall p t).map fun m => { m with before := c :: m.before }

/-- One piece of a left-to-right scan: a character copied, or the text of a match. -/
inductive Piece
  | chr (c : Char)
  | hit (m : List Char)
deriving DecidableEq, Repr

/-- The scan behind `re.sub` and `re.finditer`, run on at most `fuel` positions: at each
position try the pattern; a nonempty match is taken whole and the scan resumes after it,
an empty match is taken and the next character copied, and otherwise the character is
copied. -/
def scanFuel (dotall : Bool) (p : List Atom) : Nat → List Char → List Piece
  | 0, _ => []
  | _ + 1, [] => if (matchAt dotall p []).isSome then [.hit []] else []
  | n + 1, c :: t =>
    match matchAt dotall p (c :: t) with
    | some r =>
      if r.length < t.length + 1 then
        .hit ((c :: t).take (t.length + 1 - r.length)) :: scanFuel dotall p n r
      else .hit [] :: .chr c :: scanFuel dotall p n t
    | none => .chr c :: scanFuel dotall p n t

/-- The scan of a whole text; one position more than the text has is always enough fuel
(`scanFuel_eq_scan`). -/
def scan (dotall : Bool) (p : List Atom) (s : List Char) : List Piece :=
  scanFuel dotall p (s.length + 1) s

/-- `re.sub(pattern, repl, s)`: every match replaced by `repl` of its text. -/
def sub (dotall : Bool) (p : List Atom) (repl : List Char → List Char) (s : List Char) :
    List Char :=
  (scan dotall p s).flatMap fun
    | .chr c => [c]
    | .hit m => repl m

/-- `s.replace(old, new)` for a nonempty `old`: the `re.sub` of the pattern that matches `old`
literally. -/
def strReplace (old new : List Char) (s : List Char) : List Char :=
  sub false (old.map .lit) (fun _ => new) s

/-- `re.finditer(pattern, s)`, each match as its text `group()`. -/
def finditer (dotall : Bool) (p : List Atom) (s : List Char) : List (List Char) :=
  (scan dotall p s).filterMap fun
    | .chr _ => none
    | .hit m => some m

/-! ## What a match consumes -/

/-- A greedy star hands the rest of the pattern only suffixes of its text. -/
theorem starMatch_suffix {p : Char → Bool} {next : List Char → Option (List Char)}
    (hnext : ∀ t r, next t = some r → r <:+ t) :
    ∀ s r, starMatch p next s = some r → r <:+ s
  | [], _, h => hnext _ _ h
  | c :: s, r, h => by
    by_cases hc : p c
    · cases hs : starMatch p next s with
      | some r' =>
        simp only [starMatch, hc, hs, if_true, Option.some_orElse, Option.some.injEq] at h
        exact h ▸ (starMatch_suffix hnext s r' hs).trans (List.suffix_cons c s)
      | none =>
        simp only [starMatch, hc, hs, if_true, Option.none_orElse] at h
        exact hnext _ _ h
    · simp only [starMatch, hc, Bool.false_eq_true, if_false] at h
      exact hnext _ _ h

/-- The matcher leaves a suffix of its text. -/
theorem matchAt_suffix (dotall : Bool) :
    ∀ (p : List Atom) (s r : List Char), matchAt dotall p s = some r → r <:+ s
  | [], s, r, h => by cases h; exact List.suffix_refl s
  | .lit _ :: p, d :: s, r, h | .cls _ :: p, d :: s, r, h => by
    simp only [matchAt] at h
    split at h
    · exact (matchAt_suffix dotall p s r h).trans (List.suffix_cons d s)
    · cases h
  | .star k :: p, s, r, h => by
    rw [matchAt] at h
    exact starMatch_suffix (matchAt_suffix dotall p) s r h
  | .plus k :: p, d :: s, r, h => by
    simp only [matchAt] at h
    split at h
    · exact (starMatch_suffix (matchAt_suffix dotall p) s r h).trans (List.suffix_cons d s)
    · cases h
  | .lit _ :: _, [], _, h | .cls _ :: _, [], _, h | .plus _ :: _, [], _, h => by cases h

theorem isSome_orElse {α : Type} (a b : Option α) : (a <|> b).isSome = (a.isSome || b.isSome) := by
  cases a <;> rfl

/-- A greedy star whose continuation is weakened still finds a match. -/
theorem starMatch_isSome_mono {p : Char → Bool} {next next' : List Char → Option (List Char)}
    (h : ∀ t, (next t).isSome → (next' t).isSome) :
    ∀ s, (starMatch p next s).isSome → (starMatch p next' s).isSome
  | [], hs => h _ hs
  | c :: s, hs => by
    by_cases hc : p c
    · simp only [starMatch, hc, if_true, isSome_orElse, Bool.or_eq_true] at hs ⊢
      exact hs.imp (starMatch_isSome_mono h s) (h _)
    · simp only [starMatch, hc, Bool.false_eq_true, if_false] at hs ⊢
      exact h _ hs

/-- A greedy star hands the rest of the pattern a suffix of its text. -/
theorem starMatch_isSome_suffix {p : Char → Bool} {next : List Char → Option (List Char)} :
    ∀ s, (starMatch p next s).isSome → ∃ t, t <:+ s ∧ (next t).isSome
  | [], h => ⟨[], List.suffix_refl _, h⟩
  | c :: s, h => by
    by_cases hc : p c
    · simp only [starMatch, hc, if_true, isSome_orElse, Bool.or_eq_true] at h
      rcases h with h | h
      · obtain ⟨t, ht, hn⟩ := starMatch_isSome_suffix s h
        exact ⟨t, ht.trans (List.suffix_cons c s), hn⟩
      · exact ⟨c :: s, List.suffix_refl _, h⟩
    · simp only [starMatch, hc, Bool.false_eq_true, if_false] at h
      exact ⟨c :: s, List.suffix_refl _, h⟩

/-- A greedy star finds nothing where the rest of the pattern fails at every suffix its run
can reach. -/
theorem starMatch_eq_none {p : Char → Bool} {next : List Char → Option (List Char)} :
    ∀ s, (∀ v w, s = v ++ w → (∀ c ∈ v, p c = true) → next w = none) →
      starMatch p next s = none
  | [], h => h [] [] rfl (by simp)
  | c :: s, h => by
    have h0 : next (c :: s) = none := h [] _ rfl (by simp)
    by_cases hc : p c
    · have hs : starMatch p next s = none := starMatch_eq_none s fun v w e hv =>
        h (c :: v) w (by rw [e, List.cons_append]) (List.forall_mem_cons.mpr ⟨hc, hv⟩)
      simp only [starMatch, hc, if_true, hs, h0, Option.none_orElse]
    · simp only [starMatch, hc, Bool.false_eq_true, if_false, h0]

/-- A greedy star takes the longest run after which the rest of the pattern succeeds. -/
theorem starMatch_eq_some {p : Char → Bool} {next : List Char → Option (List Char)}
    {t r : List Char} (ht : next t = some r)
    (hlater : ∀ v w, t = v ++ w → v ≠ [] → (∀ c ∈ v, p c = true) → next w = none) :
    ∀ u, (∀ c ∈ u, p c = true) → starMatch p next (u ++ t) = some r
  | [], _ => by
    cases t with
    | nil => exact ht
    | cons c t' =>
      by_cases hc : p c
      · have hs : starMatch p next t' = none := starMatch_eq_none t' fun v w e hv =>
          hlater (c :: v) w (by rw [e, List.cons_append]) (List.cons_ne_nil _ _)
            (List.forall_mem_cons.mpr ⟨hc, hv⟩)
        simp only [List.nil_append, starMatch, hc, if_true, hs, ht, Option.none_orElse]
      · simp only [List.nil_append, starMatch, hc, Bool.false_eq_true, if_false, ht]
  | c :: u, hu => by
    have hc : p c = true := hu c (List.mem_cons_self _ _)
    rw [List.cons_append, starMatch, if_pos hc,
      starMatch_eq_some ht hlater u fun d hd => hu d (List.mem_cons_of_mem _ hd)]
    rfl

/-- What a greedy star finds splits its text into a run of the class and a remainder on which
the rest of the pattern succeeds. -/
theorem starMatch_split {p : Char → Bool} {next : List Char → Option (List Char)} :
    ∀ s r, starMatch p next s = some r →
      ∃ u t, s = u ++ t ∧ (∀ c ∈ u, p c = true) ∧ next t = some r
  | [], _, h => ⟨[], [], rfl, by simp, h⟩
  | c :: s, r, h => by
    by_cases hc : p c
    · cases hs : starMatch p next s with
      | some r' =>
        simp only [starMatch, hc, hs, if_true, Option.some_orElse, Option.some.injEq] at h
        obtain ⟨u, t, rfl, hu, ht⟩ := starMatch_split s r' hs
        exact ⟨c :: u, t, rfl, List.forall_mem_cons.mpr ⟨hc, hu⟩, h ▸ ht⟩
      | none =>
        simp only [starMatch, hc, hs, if_true, Option.none_orElse] at h
        exact ⟨[], c :: s, rfl, by simp, h⟩
    · simp only [starMatch, hc, Bool.false_eq_true, if_false] at h
      exact ⟨[], c :: s, rfl, by simp, h⟩

/-- A text that `p ++ q` matches at its start is matched by `p` there. -/
theorem matchAt_append_isSome (dotall : Bool) (q : List Atom) :
    ∀ (p : List Atom) (s : List Char),
      (matchAt dotall (p ++ q) s).isSome → (matchAt dotall p s).isSome
  | [], _, _ => rfl
  | .lit _ :: p, d :: s, h | .cls _ :: p, d :: s, h => by
    simp only [List.cons_append, matchAt] at h ⊢
    split at h
    · rw [if_pos ‹_›]; exact matchAt_append_isSome dotall q p s h
    · cases h
  | .star k :: p, s, h => by
    rw [List.cons_append, matchAt.eq_4] at h
    rw [matchAt.eq_4]
    exact starMatch_isSome_mono (matchAt_append_isSome dotall q p) s h
  | .plus k :: p, d :: s, h => by
    rw [List.cons_append, matchAt.eq_5] at h
    rw [matchAt.eq_5]
    split at h
    · rw [if_pos ‹_›]; exact starMatch_isSome_mono (matchAt_append_isSome dotall q p) s h
    · cases h
  | .lit _ :: _, [], h | .cls _ :: _, [], h | .plus _ :: _, [], h => by
    simp [matchAt] at h

/-- Where `re.search` finds no `p`, it finds no `p` followed by more. -/
theorem search_append_eq_none {dotall : Bool} {p : List Atom} (q : List Atom) :
    ∀ {s : List Char}, search dotall p s = none → search dotall (p ++ q) s = none
  | [], h => by
    have hm : matchAt dotall p [] = none := by simpa [search] using h
    have hm' : matchAt dotall (p ++ q) [] = none := Option.not_isSome_iff_eq_none.mp
      fun hs => by simpa [hm] using matchAt_append_isSome dotall q p _ hs
    simp [search, hm']
  | c :: t, h => by
    have hm : matchAt dotall p (c :: t) = none := by
      cases hm : matchAt dotall p (c :: t) with
      | none => rfl
      | some r => simp [search, hm] at h
    have ht : search dotall p t = none := by simpa [search, hm] using h
    have hm' : matchAt dotall (p ++ q) (c :: t) = none := Option.not_isSome_iff_eq_none.mp
      fun hs => by simpa [hm] using matchAt_append_isSome dotall q p _ hs
    simp [search, hm', search_append_eq_none q ht]

/-- `re.search` skips a prefix at none of whose positions the pattern matches. -/
theorem search_append_of_none {dotall : Bool} {p : List Atom} {y : List Char} :
    ∀ {x : List Char}, (∀ z, z <:+ x → z ≠ [] → matchAt dotall p (z ++ y) = none) →
      search dotall p (x ++ y) =
        (search dotall p y).map fun m => { m with before := x ++ m.before }
  | [], _ => by
    rw [List.nil_append]
    cases search dotall p y <;> rfl
  | c :: x, h => by
    have hc : matchAt dotall p (c :: (x ++ y)) = none :=
      h (c :: x) (List.suffix_refl _) (List.cons_ne_nil _ _)
    rw [List.cons_append, search, hc]
    dsimp only
    rw [search_append_of_none fun z hz hne => h z (hz.trans (List.suffix_cons c x)) hne,
      Option.map_map]
    rfl

/-- `re.search` finds nothing in a text at none of whose positions the pattern matches. -/
theorem search_eq_none_of_forall {dotall : Bool} {p : List Atom} :
    ∀ {s : List Char}, (∀ y, y <:+ s → matchAt dotall p y = none) → search dotall p s = none
  | [], h => by simp [search, h [] (List.suffix_refl _)]
  | c :: t, h => by
    rw [search, h _ (List.suffix_refl _)]
    simp [search_eq_none_of_forall fun y hy => h y (hy.trans (List.suffix_cons c t))]

/-- A suffix and the text before it make up the whole. -/
theorem take_append_of_suffix {r s : List Char} (h : r <:+ s) :
    s.take (s.length - r.length) ++ r = s := by
  obtain ⟨u, rfl⟩ := h
  simp

/-- What `re.search` returns splits the text around a match of the pattern. -/
theorem search_eq_some {dotall : Bool} {p : List Atom} : ∀ {s : List Char} {m : Found},
    search dotall p s = some m →
      s = m.before ++ m.group ++ m.after ∧ matchAt dotall p (m.group ++ m.after) = some m.after
  | [], m, h => by
    simp only [search, Option.map_eq_some'] at h
    obtain ⟨r, hr, rfl⟩ := h
    obtain rfl := List.eq_nil_of_suffix_nil (matchAt_suffix dotall p [] r hr)
    exact ⟨rfl, hr⟩
  | c :: t, m, h => by
    simp only [search] at h
    split at h
    · next r hr =>
      cases h
      have hs := take_append_of_suffix (matchAt_suffix dotall p _ r hr)
      exact ⟨by simpa using hs.symm, by simp only [hs]; exact hr⟩
    · simp only [Option.map_eq_some'] at h
      obtain ⟨m', hm', rfl⟩ := h
      obtain ⟨hs, hmatch⟩ := search_eq_some hm'
      exact ⟨by simp [hs], hmatch⟩

/-! ## The scan as equations

`scan` is defined through fuel only so that it computes; these lemmas are the equations of
the scan, and nothing below unfolds `scanFuel` again. -/

section Scan

variable {dotall : Bool} {p : List Atom}

theorem scanFuel_congr : ∀ (n m : Nat) (s : List Char), s.length < n → s.length < m →
    scanFuel dotall p n s = scanFuel dotall p m s
  | n + 1, m + 1, [], _, _ => rfl
  | n + 1, m + 1, c :: t, hn, hm => by
    have hn' : t.length < n := by simpa using hn
    have hm' : t.length < m := by simpa using hm
    simp only [scanFuel]
    split
    · split
      · next r _ hlt => rw [scanFuel_congr n m r (by omega) (by omega)]
      · rw [scanFuel_congr n m t hn' hm']
    · rw [scanFuel_congr n m t hn' hm']

/-- Any fuel beyond the length of the text gives the scan. -/
theorem scanFuel_eq_scan {n : Nat} {s : List Char} (h : s.length < n) :
    scanFuel dotall p n s = scan dotall p s :=
  scanFuel_congr n _ s h (Nat.lt_succ_self _)

theorem scan_nil : scan dotall p [] = if (matchAt dotall p []).isSome then [.hit []] else [] :=
  rfl

/-- Where the pattern does not match, the scan copies the character and moves on. -/
theorem scan_cons_of_none {c : Char} {t : List Char} (h : matchAt dotall p (c :: t) = none) :
    scan dotall p (c :: t) = .chr c :: scan dotall p t := by
  simp only [scan, scanFuel, h]
  rfl

/-- A nonempty match is taken whole and the scan resumes after it. -/
theorem scan_of_some {s r : List Char} (h : matchAt dotall p s = some r)
    (hlt : r.length < s.length) :
    scan dotall p s = .hit (s.take (s.length - r.length)) :: scan dotall p r := by
  cases s with
  | nil => simp at hlt
  | cons c t =>
    have hlt' : r.length < t.length + 1 := hlt
    simp only [scan, scanFuel, h, List.length_cons, hlt', if_true]
    rw [scanFuel_eq_scan (by omega)]
    rfl

/-- An empty match is taken and the next character copied. -/
theorem scan_cons_of_empty {c : Char} {t : List Char}
    (h : matchAt dotall p (c :: t) = some (c :: t)) :
    scan dotall p (c :: t) = .hit [] :: .chr c :: scan dotall p t := by
  simp only [scan, scanFuel, h, List.length_cons, lt_irrefl, if_false]

variable {repl : List Char → List Char}

theorem sub_nil_of_none (h : matchAt dotall p [] = none) : sub dotall p repl [] = [] := by
  rw [sub, scan_nil, h]
  rfl

theorem sub_cons_of_none {c : Char} {t : List Char} (h : matchAt dotall p (c :: t) = none) :
    sub dotall p repl (c :: t) = c :: sub dotall p repl t := by
  simp [sub, scan_cons_of_none h]

theorem sub_of_some {s r : List Char} (h : matchAt dotall p s = some r)
    (hlt : r.length < s.length) :
    sub dotall p repl s = repl (s.take (s.length - r.length)) ++ sub dotall p repl r := by
  simp [sub, scan_of_some h hlt]

theorem sub_cons_of_empty {c : Char} {t : List Char}
    (h : matchAt dotall p (c :: t) = some (c :: t)) :
    sub dotall p repl (c :: t) = repl [] ++ c :: sub dotall p repl t := by
  simp [sub, scan_cons_of_empty h]

/-- `re.sub` makes no newline where the text and every replacement have none. -/
theorem newline_not_mem_sub (hrepl : ∀ m, '\n' ∉ repl m) :
    ∀ s : List Char, '\n' ∉ s → '\n' ∉ sub dotall p repl s
  | [], _ => by
    rw [sub, scan_nil]
    split <;> simp [hrepl]
  | c :: t, hs => by
    have hc : c ≠ '\n' := fun e => hs (e ▸ List.mem_cons_self _ _)
    have ht : '\n' ∉ t := fun h => hs (List.mem_cons_of_mem _ h)
    cases hm : matchAt dotall p (c :: t) with
    | none =>
      rw [sub_cons_of_none hm]
      simpa [Ne.symm hc] using newline_not_mem_sub hrepl t ht
    | some r =>
      have hsuf := matchAt_suffix dotall p _ r hm
      by_cases hlt : r.length < (c :: t).length
      · rw [sub_of_some hm hlt, List.mem_append, not_or]
        exact ⟨hrepl _, newline_not_mem_sub hrepl r fun h => hs (hsuf.subset h)⟩
      · obtain rfl : r = c :: t := hsuf.eq_of_length (le_antisymm hsuf.length_le (by omega))
        rw [sub_cons_of_empty hm, List.mem_append, not_or]
        exact ⟨hrepl _, by simpa [Ne.symm hc] using newline_not_mem_sub hrepl t ht⟩
termination_by s => s.length

/-- `re.sub` copies a prefix at none of whose positions the pattern matches. -/
theorem sub_append_of_none {x : List Char} :
    ∀ {u : List Char}, (∀ z, z <:+ u → z ≠ [] → matchAt dotall p (z ++ x) = none) →
      sub dotall p repl (u ++ x) = u ++ sub dotall p repl x
  | [], _ => rfl
  | c :: u, h => by
    have hc : matchAt dotall p (c :: (u ++ x)) = none :=
      h _ (List.suffix_refl _) (List.cons_ne_nil _ _)
    rw [List.cons_append, sub_cons_of_none hc,
      sub_append_of_none fun z hz hne => h z (hz.trans (List.suffix_cons c u)) hne]
    rfl

end Scan

/-! ## Matches stay on their line

A pattern none of whose atoms admits a newline (`OneLine`) matches within one line, so its
scan, and `re.finditer`, restart at every newline. -/

/-- Whether an atom, or the class it repeats, admits a character. -/
def Atom.admits (dotall : Bool) : Atom → Char → Bool
  | .lit c, d => d == c
  | .cls k, d | .star k, d | .plus k, d => k.test dotall d

/-- A pattern none of whose atoms admits a newline: its matches stay on one line. -/
def OneLine (dotall : Bool) (p : List Atom) : Prop := ∀ a ∈ p, a.admits dotall '\n' = false

instance (dotall : Bool) (p : List Atom) : Decidable (OneLine dotall p) :=
  inferInstanceAs (Decidable (∀ a ∈ p, _))

theorem orElse_map {α β : Type} (f : α → β) (a b : Option α) :
    (a.map f <|> b.map f) = (a <|> b).map f := by
  cases a <;> rfl

section Lines

variable {dotall : Bool}

/-- A greedy star over a class without the newline stops at the end of the line. -/
theorem starMatch_append_newline {test : Char → Bool} {next : List Char → Option (List Char)}
    (htest : test '\n' = false) (r : List Char) :
    ∀ u : List Char, '\n' ∉ u →
      (∀ v, v <:+ u → next (v ++ '\n' :: r) = (next v).map (· ++ '\n' :: r)) →
      starMatch test next (u ++ '\n' :: r) = (starMatch test next u).map (· ++ '\n' :: r)
  | [], _, hnext => by
    simp only [List.nil_append, starMatch, htest, Bool.false_eq_true, if_false]
    exact hnext [] (List.suffix_refl _)
  | c :: u, hu, hnext => by
    have hc : '\n' ∉ u := fun h => hu (List.mem_cons_of_mem _ h)
    have ih := starMatch_append_newline htest r u hc
      fun v hv => hnext v (hv.trans (List.suffix_cons c u))
    have h0 := hnext (c :: u) (List.suffix_refl _)
    rw [List.cons_append, starMatch, starMatch, ih, ← List.cons_append, h0]
    split
    · exact orElse_map _ _ _
    · rfl

/-- A match of a one-line pattern does not see past the end of its line. -/
theorem matchAt_append_newline (r : List Char) :
    ∀ (p : List Atom), OneLine dotall p → ∀ u : List Char, '\n' ∉ u →
      matchAt dotall p (u ++ '\n' :: r) = (matchAt dotall p u).map (· ++ '\n' :: r)
  | [], _, _, _ => rfl
  | .lit _ :: p, hp, [], _ | .cls _ :: p, hp, [], _ | .plus _ :: p, hp, [], _ => by
    have ha := hp _ (List.mem_cons_self _ _)
    simp only [Atom.admits, beq_eq_false_iff_ne] at ha
    simp [matchAt, ha]
  | .lit _ :: p, hp, d :: u, hu | .cls _ :: p, hp, d :: u, hu => by
    have ih := matchAt_append_newline r p (fun a ha => hp a (List.mem_cons_of_mem _ ha)) u
      fun h => hu (List.mem_cons_of_mem _ h)
    simp only [List.cons_append, matchAt]
    split
    · exact ih
    · rfl
  | .star k :: p, hp, u, hu => by
    have hk : k.test dotall '\n' = false := hp _ (List.mem_cons_self _ _)
    rw [matchAt.eq_4, matchAt.eq_4]
    exact starMatch_append_newline hk r u hu fun v hv =>
      matchAt_append_newline r p (fun a ha => hp a (List.mem_cons_of_mem _ ha)) v
        fun h => hu (hv.subset h)
  | .plus k :: p, hp, d :: u, hu => by
    have hp' : OneLine dotall p := fun a ha => hp a (List.mem_cons_of_mem _ ha)
    have hu' : '\n' ∉ u := fun h => hu (List.mem_cons_of_mem _ h)
    rw [List.cons_append, matchAt.eq_5, matchAt.eq_5]
    split
    · exact starMatch_append_newline (hp _ (List.mem_cons_self _ _)) r u hu' fun v hv =>
        matchAt_append_newline r p hp' v fun h => hu' (hv.subset h)
    · rfl

variable {p : List Atom}

/-- The scan of a one-line pattern restarts at every newline. -/
theorem scan_append_newline (hp : OneLine dotall p) (r : List Char) :
    ∀ u : List Char, '\n' ∉ u →
      scan dotall p (u ++ '\n' :: r) = scan dotall p u ++ .chr '\n' :: scan dotall p r
  | [], _ => by
    have h := matchAt_append_newline r p hp [] (List.not_mem_nil _)
    cases hm : matchAt dotall p [] with
    | none =>
      rw [hm] at h
      rw [List.nil_append, scan_cons_of_none h, scan_nil, hm]
      rfl
    | some v =>
      obtain rfl := List.eq_nil_of_suffix_nil (matchAt_suffix _ _ _ _ hm)
      rw [hm] at h
      rw [List.nil_append, scan_cons_of_empty h, scan_nil, hm]
      rfl
  | c :: u, hu => by
    have hu' : '\n' ∉ u := fun h => hu (List.mem_cons_of_mem _ h)
    have h := matchAt_append_newline r p hp (c :: u) hu
    cases hm : matchAt dotall p (c :: u) with
    | none =>
      rw [hm, Option.map_none', List.cons_append] at h
      rw [List.cons_append, scan_cons_of_none h, scan_cons_of_none hm,
        scan_append_newline hp r u hu']
      rfl
    | some v =>
      rw [hm, Option.map_some'] at h
      have hsuf := matchAt_suffix _ _ _ _ hm
      have hlen := hsuf.length_le
      by_cases hlt : v.length < (c :: u).length
      · have htake : (c :: u ++ '\n' :: r).take ((c :: u ++ '\n' :: r).length -
            (v ++ '\n' :: r).length) = (c :: u).take ((c :: u).length - v.length) := by
          rw [show (c :: u ++ '\n' :: r).length - (v ++ '\n' :: r).length =
            (c :: u).length - v.length by simp; omega]
          exact List.take_append_of_le_length (Nat.sub_le _ _)
        rw [scan_of_some h (by simp at hlt ⊢; omega), scan_of_some hm hlt, htake,
          scan_append_newline hp r v fun h => hu (hsuf.subset h)]
        rfl
      · obtain rfl : v = c :: u := hsuf.eq_of_length (by omega)
        rw [List.cons_append] at h
        rw [List.cons_append, scan_cons_of_empty h, scan_cons_of_empty hm,
          scan_append_newline hp r u hu']
        rfl
termination_by u => u.length

theorem finditer_append_newline (hp : OneLine dotall p) (r : List Char) {u : List Char}
    (hu : '\n' ∉ u) :
    finditer dotall p (u ++ '\n' :: r) = finditer dotall p u ++ finditer dotall p r := by
  simp only [finditer, scan_append_newline hp r u hu, List.filterMap_append, List.filterMap_cons]

/-- `re.finditer` of a one-line pattern finds the matches of each line in turn. -/
theorem finditer_eq_flatMap_splitLines (hp : OneLine dotall p) (t : List Char) :
    finditer dotall p t = (splitLines t).flatMap (finditer dotall p) := by
  have key : ∀ (ls : List (List Char)) (l : List Char), (∀ x ∈ l :: ls, '\n' ∉ x) →
      finditer dotall p (joinLines (l :: ls)) = (l :: ls).flatMap (finditer dotall p) := by
    intro ls
    induction ls with
    | nil => intro l _; simp
    | cons l' ls ih =>
      intro l h
      rw [joinLines_cons_cons, finditer_append_newline hp _ (h l (List.mem_cons_self _ _)),
        ih l' fun x hx => h x (List.mem_cons_of_mem _ hx)]
      simp only [List.flatMap_cons]
  obtain ⟨l, ls, hls⟩ := List.exists_cons_of_ne_nil (splitLines_ne_nil t)
  conv_lhs => rw [← joinLines_splitLines t, hls]
  rw [hls]
  exact key ls l fun x hx => newline_not_mem_of_mem_splitLines (hls ▸ hx)

theorem sub_append_newline (hp : OneLine dotall p) {repl : List Char → List Char}
    (r : List Char) {u : List Char} (hu : '\n' ∉ u) :
    sub dotall p repl (u ++ '\n' :: r) = sub dotall p repl u ++ '\n' :: sub dotall p repl r := by
  simp only [sub, scan_append_newline hp r u hu, List.flatMap_append, List.flatMap_cons]
  rfl

/-- `re.sub` of a one-line pattern rewrites each line of a text on its own. -/
theorem sub_joinLines (hp : OneLine dotall p) (repl : List Char → List Char) :
    ∀ (l : List Char) (ls : List (List Char)), (∀ x ∈ l :: ls, '\n' ∉ x) →
      sub dotall p repl (joinLines (l :: ls)) = joinLines ((l :: ls).map (sub dotall p repl))
  | _, [], _ => by simp
  | l, l' :: ls, h => by
    rw [joinLines_cons_cons, sub_append_newline hp _ (h l (List.mem_cons_self _ _)),
      sub_joinLines hp repl l' ls fun x hx => h x (List.mem_cons_of_mem _ hx)]
    simp only [List.map_cons, joinLines_cons_cons]

end Lines
end SdkMigration.Regex
