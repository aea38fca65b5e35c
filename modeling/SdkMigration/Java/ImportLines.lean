import Mathlib.Data.List.DropRight
import SdkMigration.Java.Pipeline
import SdkMigration.Java.Locators

/-!
# Import lines through the whole pipeline

Deduplication is the first pass of `convert_java` (`nodup_imports_replaceImportsWith`); the
passes after it edit text, and an edit inside an import line can make two of them equal
(`convertJavaText_dup_imports`).  This module shows that nothing else breaks the promise:
where no import line left by `replace_imports` ends in a blank, holds an `@`, or holds a window
of either accessor pattern or of the factory call's head, the pipeline's output has no two
equal import lines (`nodup_importLines_convertJavaTextWith`).

The invariant is `ImportsSafe`: the import lines are distinct even after trimming, and each is
`Untouched`.  Every rewrite pass keeps some of the import lines and makes none
(`importLines_sub_marked`, `importLines_sub_oneLine`, `importLines_builderCall`), since each
rewrite starts on a line that is no import line and begins its replacement with a character
that `import` lacks.  `add_import_if_not_present` trims every line and adds its statement only
when no import line ends with it (`importLines_addImportIfNotPresent`); the trimming is why the
invariant asks for distinct lines after trimming: its scan tests the untrimmed line against the
trimmed ones it has seen, so a repeat that differs only in trailing blanks is kept, trimmed.
-/

namespace SdkMigration.Convert

open Regex

/-! ## Lines of a concatenation -/

section Lines

variable {w x r : List Char}

/-- A prefix without a newline joins the first line of what follows it. -/
theorem splitLines_append_of_not_mem (hw : '\n' ∉ w) (x : List Char) :
    splitLines (w ++ x) = (splitLines x).modifyHead (w ++ ·) := by
  induction w with
  | nil => rw [List.nil_append]; cases splitLines x <;> rfl
  | cons c w ih =>
    have hc : (c == '\n') = false :=
      beq_eq_false_iff_ne.mpr fun h => hw (h ▸ List.mem_cons_self _ _)
    rw [List.cons_append, splitLines, List.splitOn, List.splitOnP_cons, hc, if_neg Bool.false_ne_true]
    rw [splitLines, List.splitOn] at ih
    rw [ih fun h => hw (List.mem_cons_of_mem _ h), List.modifyHead_modifyHead]
    rfl

/-- A newline splits the import lines of a text in two. -/
theorem importLines_append_newline (x y : List Char) :
    importLines (x ++ '\n' :: y) = importLines x ++ importLines y := by
  rw [importLines, splitLines, List.splitOn,
    splitOnP_append_cons (p := (· == '\n')) (beq_self_eq_true '\n'), List.filter_append]
  rfl

/-- The lines after the first one of a text are the last lines of anything that ends with it. -/
theorem tail_splitLines_suffix (x r : List Char) :
    (splitLines r).tail <:+ (splitLines (x ++ r)).tail := by
  induction x with
  | nil => exact List.suffix_refl _
  | cons c x ih =>
    simp only [splitLines, List.splitOn] at ih ⊢
    rw [List.cons_append, List.splitOnP_cons]
    split
    · exact ih.trans (List.tail_suffix _)
    · rwa [List.tail_modifyHead]

/-- The import lines of `x ++ z` are those of the complete lines of `x`, then those of the text
that begins with the last line `w` of `x`. -/
theorem importLines_append_lastLine (x : List Char) :
    ∃ b w, '\n' ∉ w ∧ ∀ z, importLines (x ++ z) = b ++ importLines (w ++ z) := by
  induction x using List.reverseRecOn with
  | nil => exact ⟨[], [], List.not_mem_nil _, fun _ => rfl⟩
  | append_singleton x c ih =>
    obtain ⟨b, w, hw, h⟩ := ih
    by_cases hc : c = '\n'
    · refine ⟨importLines x, [], List.not_mem_nil _, fun z => ?_⟩
      rw [hc, List.append_assoc, List.singleton_append, importLines_append_newline]
      rfl
    · refine ⟨b, w ++ [c], by simp [hw, Ne.symm hc], fun z => ?_⟩
      rw [List.append_assoc, List.singleton_append, h, List.append_assoc, List.singleton_append]

/-- A line that begins with an import line's `import` is an import line of the text. -/
theorem mem_importLines_of_prefix (hw : '\n' ∉ w) (hi : "import".toList <+: w) (x : List Char) :
    ∃ z, w ++ z ∈ importLines (w ++ x) := by
  obtain ⟨x₀, xs, hx⟩ := List.exists_cons_of_ne_nil (splitLines_ne_nil x)
  refine ⟨x₀, List.mem_filter.mpr ⟨?_, (isImportLine_iff _).mpr (hi.trans (List.prefix_append _ _))⟩⟩
  rw [splitLines_append_of_not_mem hw, hx]
  exact List.mem_cons_self _ _

/-- Splicing a one-line text that starts with a character `import` lacks, on a line that is
no import line, keeps some of the import lines and makes none: the line it lands on stays
no import line, and the lines after it are lines of the text before. -/
theorem importLines_splice {Y : List Char} {c : Char} (hw : '\n' ∉ w) (hY : '\n' ∉ c :: Y)
    (hi : ¬"import".toList <+: w) (hc : c ∉ "import".toList) (G r : List Char) :
    List.Sublist (importLines (w ++ c :: Y ++ r)) (importLines (w ++ G ++ r)) := by
  obtain ⟨r₀, rs, hr⟩ := List.exists_cons_of_ne_nil (splitLines_ne_nil r)
  have hline : isImportLine (w ++ c :: Y ++ r₀) = false := by
    rw [Bool.eq_false_iff, Ne, isImportLine_iff, List.append_assoc, List.cons_append]
    exact fun h => hi (prefix_of_prefix_append_cons h hc)
  have hout : importLines (w ++ c :: Y ++ r) = rs.filter isImportLine := by
    rw [importLines, splitLines_append_of_not_mem (by simp [hw, hY]), hr, List.modifyHead_cons,
      List.filter_cons_of_neg (by simp only [hline, Bool.false_eq_true, not_false_eq_true])]
  have hin : rs <:+ splitLines (w ++ G ++ r) := by
    have h := tail_splitLines_suffix G r
    rw [hr, List.tail_cons, ← List.tail_modifyHead (f := (w ++ ·)),
      ← splitLines_append_of_not_mem hw, ← List.append_assoc] at h
    exact h.trans (List.tail_suffix _)
  rw [hout]
  exact hin.sublist.filter _

/-- The same splice after any text `x`, where the line it lands on holds a one-line text `g`
that no import line holds. -/
theorem importLines_splice_of_line {Y g : List Char} {c : Char} (hY : '\n' ∉ c :: Y)
    (hc : c ∉ "import".toList) (hg : '\n' ∉ g) (z : List Char)
    (h : ∀ L ∈ importLines (x ++ g ++ z), ¬g <:+: L) (G r : List Char) :
    List.Sublist (importLines (x ++ c :: Y ++ r)) (importLines (x ++ G ++ r)) := by
  obtain ⟨b, w, hw, hlast⟩ := importLines_append_lastLine x
  have hwi : ¬"import".toList <+: w := fun hi => by
    obtain ⟨y, hy⟩ := mem_importLines_of_prefix (x := z) (by simp [hw, hg])
      (hi.trans (List.prefix_append w g))
    refine h _ ?_ (List.infix_append w g y)
    rw [List.append_assoc, hlast, ← List.append_assoc]
    exact List.mem_append_right b hy
  rw [List.append_assoc x, hlast, List.append_assoc x, hlast, ← List.append_assoc,
    ← List.append_assoc]
  exact (importLines_splice hw hY hwi hc G r).append_left b

end Lines

/-! ## Rewrites that start on a line that is no import line -/

section Rewrite

variable {dotall : Bool} {p : List Atom} {repl : List Char → List Char} {c : Char}

/-- `re.sub` with a pattern that begins with the character `c`, and a one-line replacement that
begins with it, on a text whose import lines lack `c`: every match starts on a line that is
no import line, so the output keeps some of the import lines and makes none.  `x` is the
text before the part still to scan. -/
theorem importLines_sub_marked {q : List Atom} (hrepl : ∀ y, ∃ v, repl y = c :: v ∧ '\n' ∉ c :: v)
    (hc : c ∉ "import".toList) :
    ∀ (s x : List Char), (∀ L ∈ importLines (x ++ s), c ∉ L) →
      List.Sublist (importLines (x ++ sub dotall (.lit c :: q) repl s)) (importLines (x ++ s))
  | [], x, _ => by
    rw [sub_nil_of_none (matchAt_nil_of_nonempty fun _ _ => matchAt_lit_cons_length)]
  | d :: t, x, h => by
    cases hm : matchAt dotall (.lit c :: q) (d :: t) with
    | none =>
      rw [sub_cons_of_none hm, List.append_cons x d, List.append_cons x d t]
      rw [List.append_cons x d t] at h
      exact importLines_sub_marked hrepl hc t (x ++ [d]) h
    | some r =>
      have hd : c = d := by
        by_contra hne
        simp [matchAt, Ne.symm hne] at hm
      subst hd
      obtain ⟨v, hv, hnl⟩ := hrepl ((c :: t).take ((c :: t).length - r.length))
      -- the match starts on a line that holds `c`, so no import line
      have hstep : List.Sublist (importLines (x ++ c :: v ++ r)) (importLines (x ++ c :: t)) := by
        rw [← take_append_of_suffix (matchAt_suffix dotall _ _ r hm), ← List.append_assoc]
        exact importLines_splice_of_line hnl hc
          (fun e => hnl (List.mem_cons.mpr (.inl (List.mem_singleton.mp e)))) t
          (fun L hL hcL => h L (by simpa using hL) (hcL.subset (List.mem_singleton_self c))) _ r
      have hlt := matchAt_lit_cons_length hm
      rw [sub_of_some hm hlt, hv, ← List.append_assoc]
      exact (importLines_sub_marked hrepl hc r _ fun L hL => h L (hstep.subset hL)).trans hstep
termination_by s => s.length

/-- A fixed-width pattern consumes a character wherever it matches. -/
theorem matchAt_length_lt_of_fixed (hp : Fixed p) {s r : List Char}
    (h : matchAt dotall p s = some r) : r.length < s.length := by
  rw [matchAt_of_fixed hp] at h
  split at h
  · next hf =>
    cases h
    have := length_le_of_fits hf
    have := List.length_pos.mpr hp.ne_nil
    simp only [List.length_drop]
    omega
  · cases h

/-- Mapping the lines by an edit that leaves as it was every line it makes an import line keeps
some of the import lines and makes none. -/
theorem filter_map_sublist {f : List Char → List Char} :
    ∀ {ls : List (List Char)}, (∀ l ∈ ls, isImportLine (f l) = true → f l = l) →
      List.Sublist ((ls.map f).filter isImportLine) (ls.filter isImportLine)
  | [], _ => List.Sublist.slnil
  | l :: ls, h => by
    have ih := filter_map_sublist fun l' hl' => h l' (List.mem_cons_of_mem _ hl')
    rw [List.map_cons, List.filter_cons]
    split
    · next hf =>
      have e := h l (List.mem_cons_self _ _) hf
      rw [e] at hf ⊢
      rw [List.filter_cons_of_pos hf]
      exact ih.cons₂ l
    · exact ih.trans ((List.sublist_cons_self l ls).filter _)

/-- `re.sub` with a one-line fixed-width pattern, and a one-line replacement that begins with a
character `import` lacks, on a text whose import lines hold no window of the pattern: each line
is rewritten on its own, the import lines are left as they are, and no line becomes one. -/
theorem importLines_sub_oneLine (hp : Fixed p) (h1 : OneLine dotall p)
    (hrepl : ∀ y, ∃ v, repl y = c :: v ∧ '\n' ∉ c :: v) (hc : c ∉ "import".toList)
    (s : List Char) (hs : ∀ L ∈ importLines s, count dotall p L = 0) :
    List.Sublist (importLines (sub dotall p repl s)) (importLines s) := by
  obtain ⟨l, ls, hls⟩ := List.exists_cons_of_ne_nil (splitLines_ne_nil s)
  have hlines : ∀ x ∈ l :: ls, '\n' ∉ x := fun x hx =>
    newline_not_mem_of_mem_splitLines (hls ▸ hx)
  have hnl : ∀ y, '\n' ∉ repl y := fun y => by
    obtain ⟨v, hv, hn⟩ := hrepl y
    rwa [hv]
  have hsub : sub dotall p repl s = joinLines ((l :: ls).map (sub dotall p repl)) := by
    rw [← sub_joinLines h1 repl l ls hlines, ← hls, joinLines_splitLines]
  rw [importLines, hsub, splitLines_joinLines (fun x hx => ?_) (by simp), importLines, hls]
  · refine filter_map_sublist fun L hL himp => ?_
    by_cases hi : isImportLine L
    · exact sub_eq_self_of_count hp (hs L (List.mem_filter.mpr ⟨hls ▸ hL, hi⟩))
    · refine absurd ((isImportLine_iff L).mpr (prefix_of_prefix_sub
        (fun _ _ => matchAt_length_lt_of_fixed hp) (fun y => (hrepl y).imp fun _ h => h.1) L hc
        ((isImportLine_iff _).mp himp))) ?_
      simpa using hi
  · obtain ⟨y, hy, rfl⟩ := List.mem_map.mp hx
    exact newline_not_mem_sub hnl y (hlines y hy)

/-- A match of a one-line pattern holds no newline. -/
theorem newline_not_mem_of_matchAt (hp : OneLine dotall p) {g r : List Char}
    (h : matchAt dotall p (g ++ r) = some r) : '\n' ∉ g := fun hg => by
  obtain ⟨u, v, hu, rfl, -⟩ := List.exists_erase_eq hg
  rw [List.append_assoc, List.cons_append, matchAt_append_newline _ p hp u hu] at h
  obtain ⟨y, -, hy⟩ := Option.map_eq_some'.mp h
  have := congrArg List.length hy
  simp only [List.length_append, List.length_cons] at this
  omega

end Rewrite

/-- The splice of one iteration of the factory loop, on a text whose import lines hold no
window of the call's head: the match lies on one line, which is no import line since it holds
such a window, and the builder call begins with `P`. -/
theorem importLines_builderCall {x g z cn : List Char} (hg : '\n' ∉ g) (hcn : '\n' ∉ cn)
    (hcall : 0 < createCalls g) (h : ∀ L ∈ importLines (x ++ g ++ z), createCalls L = 0) :
    List.Sublist (importLines (x ++ builderCall cn ++ z)) (importLines (x ++ g ++ z)) := by
  obtain ⟨Y, hY⟩ : ∃ Y, builderCall cn = 'P' :: Y := ⟨_, rfl⟩
  have hYnl : '\n' ∉ 'P' :: Y := by
    rw [← hY, builderCall]
    simp only [List.mem_append, not_or]
    exact ⟨⟨by decide, hcn⟩, by decide⟩
  rw [hY]
  refine importLines_splice_of_line hYnl (by decide) hg z (fun L hL hgL => ?_) g z
  have : count false createCallHead g ≤ count false createCallHead L :=
    count_le_of_infix createCallHead hgL
  have := h L hL
  unfold createCalls at *
  omega

/-! ## The invariant -/

/-- An import line no rewrite pass after `replace_imports` can start on: it holds no `@`, where a
locator rewrite starts, and no window of either accessor pattern or of the factory call's
head. -/
structure Untouched (l : List Char) : Prop where
  noAt : '@' ∉ l
  applause : count false applauseAccessor l = 0
  config : count false configAccessor l = 0
  calls : createCalls l = 0

instance (l : List Char) : Decidable (Untouched l) :=
  decidable_of_iff ('@' ∉ l ∧ count false applauseAccessor l = 0 ∧
      count false configAccessor l = 0 ∧ createCalls l = 0)
    ⟨fun h => ⟨h.1, h.2.1, h.2.2.1, h.2.2.2⟩, fun h => ⟨h.1, h.2, h.3, h.4⟩⟩

/-- A prefix of an untouched line, such as the line trimmed, is untouched. -/
theorem Untouched.of_prefix {l l' : List Char} (h : Untouched l) (hp : l' <+: l) :
    Untouched l' := by
  have hc : ∀ q : List Atom, count false q l = 0 → count false q l' = 0 := fun q hq =>
    Nat.le_zero.mp (hq ▸ count_le_of_prefix q hp)
  exact ⟨fun ha => h.noAt (hp.subset ha), hc _ h.applause, hc _ h.config,
    hc createCallHead h.calls⟩

/-- What the passes after `replace_imports` keep: the import lines are distinct even after
trimming, and no rewrite can start on one. -/
structure ImportsSafe (s : List Char) : Prop where
  nodup : ((importLines s).map rstrip).Nodup
  untouched : ∀ l ∈ importLines s, Untouched l

/-- A text whose import lines are some of those of a safe text is safe. -/
theorem ImportsSafe.of_sublist {s s' : List Char} (h : ImportsSafe s)
    (hs : List.Sublist (importLines s') (importLines s)) : ImportsSafe s' :=
  ⟨(hs.map rstrip).nodup h.nodup, fun l hl => h.untouched l (hs.subset hl)⟩

/-! ## `add_import_if_not_present` on distinct import lines -/

theorem rstrip_rstrip (s : List Char) : rstrip (rstrip s) = rstrip s := by
  simp only [rstrip, List.reverse_reverse, List.dropWhile_idempotent]

/-- Where the trimmed import lines are distinct and none was seen before, the scan of
`add_import_if_not_present` skips no line: it keeps every line, trimmed, and has found the
statement exactly when an import line, trimmed, ends with it. -/
theorem addImportScan_of_nodup (stmt : List Char) :
    ∀ (i : Nat) (st : AddImportState) (lines : List (List Char)),
      (∀ e ∈ st.existingImports, rstrip e = e ∧ isImportLine e = true) →
      ((lines.filter isImportLine).map rstrip).Nodup →
      (∀ l ∈ lines.filter isImportLine, rstrip l ∉ st.existingImports) →
      (addImportScan stmt i st lines).linesWithoutDuplicates =
          st.linesWithoutDuplicates ++ lines.map rstrip ∧
        (addImportScan stmt i st lines).containsImport =
          (st.containsImport || (lines.filter isImportLine).any fun l => stmt.isSuffixOf (rstrip l))
  | _, st, [], _, _, _ => by simp [addImportScan]
  | i, st, line :: lines, he, hd, hn => by
    have hmem : line ∉ st.existingImports := fun h =>
      hn line (List.mem_filter.mpr ⟨List.mem_cons_self _ _, (he line h).2⟩) ((he line h).1.symm ▸ h)
    rw [addImportScan]
    by_cases hi : isImportLine line
    · rw [List.filter_cons_of_pos hi, List.map_cons, List.nodup_cons] at hd
      rw [List.filter_cons_of_pos hi] at hn
      have hstep : addImportStep stmt st i line =
          ⟨st.linesWithoutDuplicates ++ [rstrip line], rstrip line :: st.existingImports, i,
            st.containsImport || stmt.isSuffixOf (rstrip line)⟩ := by
        simp [addImportStep, hmem, hi]
      obtain ⟨h1, h2⟩ := addImportScan_of_nodup stmt (i + 1) (addImportStep stmt st i line) lines
        (hstep ▸ List.forall_mem_cons.mpr
          ⟨⟨rstrip_rstrip line, (isImportLine_rstrip line).trans hi⟩, he⟩) hd.2
        (hstep ▸ fun l hl => List.not_mem_cons_of_ne_of_not_mem
          (fun e => hd.1 (e ▸ List.mem_map_of_mem rstrip hl)) (hn l (List.mem_cons_of_mem _ hl)))
      rw [h1, h2, hstep]
      simp [List.filter_cons_of_pos hi, Bool.or_assoc]
    · rw [List.filter_cons_of_neg hi] at hd hn
      have hstep : addImportStep stmt st i line =
          { st with linesWithoutDuplicates := st.linesWithoutDuplicates ++ [rstrip line] } := by
        simp [addImportStep, hmem, hi]
      obtain ⟨h1, h2⟩ := addImportScan_of_nodup stmt (i + 1) (addImportStep stmt st i line) lines
        (hstep ▸ he) hd (hstep ▸ hn)
      rw [h1, h2, hstep]
      simp [List.filter_cons_of_neg hi]

/-- On a text whose trimmed import lines are distinct, `add_import_if_not_present` returns
its import lines trimmed, and its statement where none of them ends with it. -/
theorem importLines_addImportIfNotPresent (stmt s : List Char) (hnl : '\n' ∉ stmt)
    (hi : isImportLine stmt = true) (hd : ((importLines s).map rstrip).Nodup) :
    (importLines (addImportIfNotPresent stmt s)).Perm
      ((if (importLines s).any fun l => stmt.isSuffixOf (rstrip l) then [] else [stmt]) ++
        (importLines s).map rstrip) := by
  obtain ⟨h1, h2⟩ := addImportScan_of_nodup stmt 0 ⟨[], [], 1, false⟩ (splitLines s)
    (fun _ h => absurd h (List.not_mem_nil _)) hd (fun _ _ => List.not_mem_nil _)
  have hf : ((splitLines s).map rstrip).filter isImportLine = (importLines s).map rstrip := by
    rw [List.filter_map, importLines]
    congr 2
    funext l
    exact isImportLine_rstrip l
  rw [importLines, splitLines_addImportIfNotPresent stmt s hnl]
  dsimp only
  rw [h1, h2, List.nil_append, Bool.false_or, ← importLines]
  split
  · rw [List.nil_append, hf]
  · rw [listInsert, List.filter_append, List.filter_cons_of_pos hi, ← hf,
      ← List.take_append_drop (addImportScan stmt 0 ⟨[], [], 1, false⟩ (splitLines s)).lastImport
        ((splitLines s).map rstrip), List.filter_append, List.take_append_drop]
    exact List.perm_middle

/-- `add_import_if_not_present` of an untouched import statement keeps a text safe. -/
theorem ImportsSafe.addImport {s stmt : List Char} (h : ImportsSafe s) (hnl : '\n' ∉ stmt)
    (hi : isImportLine stmt = true) (hr : rstrip stmt = stmt) (hu : Untouched stmt) :
    ImportsSafe (addImportIfNotPresent stmt s) := by
  have hp := importLines_addImportIfNotPresent stmt s hnl hi h.nodup
  have hmap : ((importLines s).map rstrip).map rstrip = (importLines s).map rstrip := by
    simp [Function.comp_def, rstrip_rstrip]
  refine ⟨(hp.map rstrip).nodup_iff.mpr ?_, fun l hl => ?_⟩
  · rw [List.map_append, hmap]
    split
    · exact h.nodup
    · next hc =>
      refine List.nodup_cons.mpr ⟨fun hm => hc ?_, h.nodup⟩
      obtain ⟨l, hl, e⟩ := List.mem_map.mp hm
      exact List.any_eq_true.mpr
        ⟨l, hl, by rw [e, hr]; exact List.isSuffixOf_iff_suffix.mpr (List.suffix_refl _)⟩
  · rcases List.mem_append.mp (hp.subset hl) with h' | h'
    · split at h'
      · cases h'
      · rw [List.mem_singleton.mp h']
        exact hu
    · obtain ⟨l', hl', rfl⟩ := List.mem_map.mp h'
      exact Untouched.of_prefix (h.untouched l' hl') (rstrip_prefix_self l')

/-! ## The passes -/

/-- Every rule of the `fix_locators` table begins with a literal `@` and has a one-line
replacement. -/
theorem locators_marked : ∀ l ∈ locators,
    (parse l.1.toList).head? = some (.lit '@') ∧ '\n' ∉ ("@Locate(" ++ l.2).toList := by
  decide

/-- One rule of `fix_locators` keeps a text safe. -/
theorem ImportsSafe.reSub_locator {s : List Char} {l : String × String} (hl : l ∈ locators)
    (h : ImportsSafe s) : ImportsSafe (reSub l.1 ("@Locate(" ++ l.2) s) := by
  obtain ⟨hp, hnl⟩ := locators_marked l hl
  obtain ⟨q, hq⟩ : ∃ q, parse l.1.toList = .lit '@' :: q := by
    cases hpl : parse l.1.toList with
    | nil => rw [hpl] at hp; cases hp
    | cons a q => rw [hpl] at hp; cases hp; exact ⟨q, rfl⟩
  refine h.of_sublist ?_
  rw [reSub, hq]
  exact importLines_sub_marked (fun _ => ⟨_, rfl, hnl⟩) (by decide) s []
    fun L hL => (h.untouched L hL).noAt

/-- The locator loop keeps a text safe. -/
theorem ImportsSafe.foldl_locators : ∀ {ls : List (String × String)}, (∀ l ∈ ls, l ∈ locators) →
    ∀ {s : List Char}, ImportsSafe s →
      ImportsSafe (ls.foldl (fun c l => reSub l.1 ("@Locate(" ++ l.2) c) s)
  | [], _, _, h => h
  | l :: _, hls, _, h => ImportsSafe.foldl_locators (fun l' hl' => hls l' (List.mem_cons_of_mem _ hl'))
      (h.reSub_locator (hls l (List.mem_cons_self _ _)))

/-- `fix_locators` keeps a text safe: the `Strategy` import is untouched, and every locator
rewrite starts at an `@`. -/
theorem ImportsSafe.fixLocators {s : List Char} (h : ImportsSafe s) : ImportsSafe (fixLocators s) := by
  unfold Convert.fixLocators
  refine ImportsSafe.foldl_locators (fun _ hl => hl) ?_
  split
  · exact h.addImport (by decide) (by decide) (by decide) (by decide)
  · exact h

/-- The accessor passes keep a text safe: their patterns have no window in an import line. -/
theorem ImportsSafe.accessors {s : List Char} (h : ImportsSafe s) :
    ImportsSafe (checkForConfigUsage (checkForApplauseConfigUsage s)) := by
  have ha : ImportsSafe (checkForApplauseConfigUsage s) :=
    h.of_sublist (importLines_sub_oneLine applauseAccessor_fixed (by decide)
      (fun _ => ⟨_, rfl, by decide⟩) (by decide) s fun L hL => (h.untouched L hL).applause)
  exact ha.of_sublist (importLines_sub_oneLine configAccessor_fixed (by decide)
    (fun _ => ⟨_, rfl, by decide⟩) (by decide) _ fun L hL => (ha.untouched L hL).config)

theorem sdkHelperCreatePattern_oneLine : OneLine false sdkHelperCreatePattern := by decide

theorem sdkHelperCreateResearchPattern_oneLine : OneLine false sdkHelperCreateResearchPattern := by
  decide

/-- What `re.search` finds for a one-line pattern holds no newline. -/
theorem newline_not_mem_group {p : List Atom} (hp : OneLine false p) {s : List Char} {m : Found}
    (h : search false p s = some m) : '\n' ∉ m.group :=
  newline_not_mem_of_matchAt hp (search_eq_some h).2

/-- One iteration of the factory loop keeps a text safe. -/
theorem ImportsSafe.rewriteCall {m : Found} (h : ImportsSafe (m.before ++ m.group ++ m.after))
    (hfit : fits false createCallHead m.group = true) (hg : '\n' ∉ m.group) :
    ImportsSafe (rewriteCall m) :=
  (h.of_sublist (importLines_builderCall hg (fun hc => hg ((className_infix_group m).subset hc))
    (one_le_count_of_fits createCallHead_spliceSafe.ne_nil hfit)
    fun L hL => (h.untouched L hL).calls)).addImport (by decide) (by decide) (by decide)
    (by decide)

/-- The factory loop keeps a text safe. -/
theorem ImportsSafe.sdkLoop : ∀ {n : Nat} {o : Option Found} {contents r : List Char},
    SearchSplits o contents → (∀ m, o = some m → '\n' ∉ m.group) →
      sdkLoop n o contents = some r → ImportsSafe contents → ImportsSafe r
  | _, none, _, _, _, _, h, hs => by
    rw [sdkLoop_none, Option.some.injEq] at h
    exact h ▸ hs
  | 0, some _, _, _, _, _, h, _ => by simp [Convert.sdkLoop] at h
  | n + 1, some m, _, _, hsp, hnl, h, hs => by
    rw [Convert.sdkLoop] at h
    obtain ⟨hsplit, hfit⟩ := hsp m rfl
    exact ImportsSafe.sdkLoop (searchSplits_research _)
      (fun _ hm => newline_not_mem_group sdkHelperCreateResearchPattern_oneLine hm) h
      ((hsplit ▸ hs).rewriteCall hfit (hnl m rfl))

theorem ImportsSafe.removeSdkHelperCreate {s : List Char} (h : ImportsSafe s) :
    ImportsSafe (removeSdkHelperCreate s) :=
  ImportsSafe.sdkLoop (searchSplits_first s)
    (fun _ hm => newline_not_mem_group sdkHelperCreatePattern_oneLine hm)
    (sdkLoop_removeSdkHelperCreate s) h

/-! ## The pipeline -/

/-- Deduplication makes the text safe where its import lines end in no blank and are
untouched. -/
theorem importsSafe_replaceImportsWith (imports : List (String × String)) (t : List Char)
    (h : ∀ l ∈ importLines (replaceImportsWith imports t), rstrip l = l ∧ Untouched l) :
    ImportsSafe (replaceImportsWith imports t) := by
  refine ⟨?_, fun l hl => (h l hl).2⟩
  rw [List.map_congr_left fun l hl => (h l hl).1, List.map_id']
  exact nodup_imports_replaceImportsWith imports t

end SdkMigration.Convert
