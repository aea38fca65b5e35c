import Mathlib.Algebra.Order.BigOperators.Group.List
import SdkMigration.LongestMatch

/-!
# Imports: `replace_imports` and `add_import_if_not_present`

Both scripts open their Java pipeline with `replace_imports`: a table of `re.sub` rules
remapping old package names to new ones, applied in the table's order over the whole
text, then a pass over the lines that drops every later copy of an import line.  The two
`convert.py` files differ only in the table, so `replaceImportsWith` takes it as a
parameter and each script's `replaceImports` applies it to its own table.

`add_import_if_not_present` scans the lines once with four pieces of loop state (the kept
lines, the set `existing_imports`, the index `last_import` and the flag `contains_import`),
right-trimming each kept line, and inserts the statement at `last_import` when no import
line ends with it.  Two details of the source are kept as they are: the membership test
reads the untrimmed line while the set holds trimmed ones, and `last_import` counts
positions of the input while the insertion indexes the shortened list.
-/

namespace SdkMigration.Convert

open Regex

/-- `re.sub(pattern, repl, contents)` for a pattern string and a replacement string with no
backslash, which is every call of the Java pipeline. -/
def reSub (pattern repl : String) (contents : List Char) : List Char :=
  sub false (parse pattern.toList) (fun _ => repl.toList) contents

/-- The remapping loop of `replace_imports`: each `(old_import, new_import)` rule in turn. -/
def remapImports (imports : List (String × String)) (contents : List Char) : List Char :=
  imports.foldl (fun c r => reSub r.1 r.2 c) contents

/-- The deduplication loop of `replace_imports`; `existing` is the set `existing_imports`. -/
def dedupImports : List (List Char) → List (List Char) → List (List Char)
  | _, [] => []
  | existing, line :: lines =>
    if line ∈ existing then dedupImports existing lines
    else if isImportLine line then line :: dedupImports (line :: existing) lines
    else line :: dedupImports existing lines

/-- `replace_imports` for a remapping table. -/
def replaceImportsWith (imports : List (String × String)) (contents : List Char) :
    List Char :=
  joinLines (dedupImports [] (splitLines (remapImports imports contents)))

/-- The loop state of `add_import_if_not_present`. -/
structure AddImportState where
  linesWithoutDuplicates : List (List Char)
  existingImports : List (List Char)
  lastImport : Nat
  containsImport : Bool

/-- One iteration of the loop of `add_import_if_not_present`, at index `i`. -/
def addImportStep (importStatement : List Char) (st : AddImportState) (i : Nat)
    (line : List Char) : AddImportState :=
  if line ∈ st.existingImports then st
  else if isImportLine line then
    { linesWithoutDuplicates := st.linesWithoutDuplicates ++ [rstrip line]
      existingImports := rstrip line :: st.existingImports
      lastImport := i
      containsImport := st.containsImport || importStatement.isSuffixOf (rstrip line) }
  else { st with linesWithoutDuplicates := st.linesWithoutDuplicates ++ [rstrip line] }

/-- `for i, line in enumerate(lines)`, from index `i`. -/
def addImportScan (importStatement : List Char) :
    Nat → AddImportState → List (List Char) → AddImportState
  | _, st, [] => st
  | i, st, line :: lines =>
    addImportScan importStatement (i + 1) (addImportStep importStatement st i line) lines

/-- `add_import_if_not_present(import_statement, contents)`. -/
def addImportIfNotPresent (importStatement contents : List Char) : List Char :=
  let st := addImportScan importStatement 0 ⟨[], [], 1, false⟩ (splitLines contents)
  joinLines (if st.containsImport then st.linesWithoutDuplicates
    else listInsert st.lastImport importStatement st.linesWithoutDuplicates)

/-- A table of `re.sub` rules whose patterns all hold the literal word `w` leaves a text
that lacks `w` as it is. -/
theorem foldl_reSub_eq_self {α : Type} {w : List Char} (pattern repl : α → String) :
    ∀ {rules : List α}, (∀ r ∈ rules, w.map .lit <:+: parse (pattern r).toList) →
      ∀ {t : List Char}, ¬w <:+: t → rules.foldl (fun c r => reSub (pattern r) (repl r) c) t = t
  | [], _, _, _ => rfl
  | r :: rs, h, t, ht => by
    have hr : reSub (pattern r) (repl r) t = t :=
      sub_eq_self_of_not_infix (h r (List.mem_cons_self _ _)) ht
    rw [List.foldl_cons, hr]
    exact foldl_reSub_eq_self pattern repl (fun r' hr' => h r' (List.mem_cons_of_mem _ hr')) ht

/-- Where the remapping loop has nothing to rewrite, `replace_imports` only deduplicates. -/
theorem replaceImportsWith_eq_dedup {w : List Char} {imports : List (String × String)}
    (h : ∀ r ∈ imports, w.map .lit <:+: parse r.1.toList) {t : List Char} (ht : ¬w <:+: t) :
    replaceImportsWith imports t = joinLines (dedupImports [] (splitLines t)) := by
  rw [replaceImportsWith, remapImports, foldl_reSub_eq_self Prod.fst Prod.snd h ht]

/-! ## What `add_import_if_not_present` keeps -/

/-- The lines the scan keeps are some of the input lines, trimmed, in order. -/
theorem addImportScan_kept (importStatement : List Char) :
    ∀ (i : Nat) (st : AddImportState) (lines : List (List Char)),
      ∃ kept, List.Sublist kept (lines.map rstrip) ∧
        (addImportScan importStatement i st lines).linesWithoutDuplicates =
          st.linesWithoutDuplicates ++ kept
  | _, st, [] => ⟨[], List.Sublist.slnil, by simp [addImportScan]⟩
  | i, st, line :: lines => by
    obtain ⟨kept, hsub, heq⟩ :=
      addImportScan_kept importStatement (i + 1) (addImportStep importStatement st i line) lines
    rw [addImportScan, heq, List.map_cons]
    unfold addImportStep
    split
    · exact ⟨kept, hsub.cons _, rfl⟩
    · split
      · exact ⟨rstrip line :: kept, hsub.cons₂ _, by simp⟩
      · exact ⟨rstrip line :: kept, hsub.cons₂ _, by simp⟩

section Windows

open Regex

variable {dotall : Bool} {p : List Atom}

/-- `add_import_if_not_present` creates no window of a one-line pattern that the import
statement does not hold: its output is some trimmed input lines and that statement. -/
theorem count_addImportIfNotPresent_le (hp : NoNewline dotall p) (hne : p ≠ [])
    (importStatement contents : List Char) (hs : count dotall p importStatement = 0) :
    count dotall p (addImportIfNotPresent importStatement contents) ≤
      count dotall p contents := by
  obtain ⟨kept, hsub, heq⟩ := addImportScan_kept importStatement 0 ⟨[], [], 1, false⟩
    (splitLines contents)
  have hkept : (kept.map (count dotall p)).sum ≤ count dotall p contents := calc
    (kept.map (count dotall p)).sum
      ≤ (((splitLines contents).map rstrip).map (count dotall p)).sum :=
        (hsub.map _).sum_le_sum fun _ _ => Nat.zero_le _
    _ ≤ ((splitLines contents).map (count dotall p)).sum := by
        rw [List.map_map]
        exact List.sum_le_sum fun l _ => count_le_of_prefix p (rstrip_prefix_self l)
    _ = count dotall p contents := by
        rw [← count_joinLines hp hne, joinLines_splitLines]
  simp only [addImportIfNotPresent, heq, List.nil_append]
  split
  · rwa [count_joinLines hp hne]
  · rw [count_joinLines hp hne, listInsert, List.map_append, List.sum_append, List.map_cons,
      List.sum_cons, hs, Nat.zero_add, ← List.sum_append, ← List.map_append, List.take_append_drop]
    exact hkept

end Windows

/-! ## The import is there afterwards -/

/-- The lines the scan keeps hold no newline. -/
theorem newline_not_mem_addImportScan (importStatement contents : List Char) :
    ∀ l ∈ (addImportScan importStatement 0 ⟨[], [], 1, false⟩
      (splitLines contents)).linesWithoutDuplicates, '\n' ∉ l := by
  obtain ⟨kept, hsub, heq⟩ := addImportScan_kept importStatement 0 ⟨[], [], 1, false⟩
    (splitLines contents)
  rw [heq, List.nil_append]
  intro l hl
  obtain ⟨l', hl', rfl⟩ := List.mem_map.mp (hsub.subset hl)
  exact fun h => newline_not_mem_of_mem_splitLines hl' (rstrip_subset l' h)

/-- A scan that has seen an import line ending in the import statement has kept it. -/
theorem addImportScan_containsImport (importStatement : List Char) :
    ∀ (i : Nat) (st : AddImportState) (lines : List (List Char)),
      (st.containsImport = true → ∃ l ∈ st.linesWithoutDuplicates, importStatement <:+ l) →
      (addImportScan importStatement i st lines).containsImport = true →
        ∃ l ∈ (addImportScan importStatement i st lines).linesWithoutDuplicates,
          importStatement <:+ l
  | _, _, [], h => h
  | i, st, line :: lines, h => addImportScan_containsImport importStatement (i + 1) _ lines (by
      have hkeep : ∀ l', (st.containsImport = true →
          ∃ l ∈ st.linesWithoutDuplicates ++ [l'], importStatement <:+ l) := fun l' hc =>
        (h hc).imp fun l ⟨hl, hs⟩ => ⟨List.mem_append_left _ hl, hs⟩
      unfold addImportStep
      split
      · exact h
      · split
        · intro hc
          rcases Bool.or_eq_true _ _ |>.mp hc with hc | hc
          · exact hkeep _ hc
          · exact ⟨rstrip line, List.mem_append_right _ (List.mem_singleton_self _),
              List.isSuffixOf_iff_suffix.mp hc⟩
        · exact hkeep _)

/-- After `add_import_if_not_present`, some line of the text ends with the import statement:
the one it inserted, or the import line that made it insert none. -/
theorem addImportIfNotPresent_present (importStatement contents : List Char)
    (hnl : '\n' ∉ importStatement) :
    ∃ line ∈ splitLines (addImportIfNotPresent importStatement contents),
      importStatement <:+ line := by
  have hlines := newline_not_mem_addImportScan importStatement contents
  have hcontains := addImportScan_containsImport importStatement 0 ⟨[], [], 1, false⟩
    (splitLines contents) (fun h => absurd h Bool.false_ne_true)
  unfold addImportIfNotPresent
  dsimp only
  split
  · next hc =>
    obtain ⟨l, hl, hs⟩ := hcontains hc
    rw [splitLines_joinLines hlines (List.ne_nil_of_mem hl)]
    exact ⟨l, hl, hs⟩
  · have hmem : importStatement ∈ listInsert (addImportScan importStatement 0 ⟨[], [], 1, false⟩
        (splitLines contents)).lastImport importStatement
        (addImportScan importStatement 0 ⟨[], [], 1, false⟩
          (splitLines contents)).linesWithoutDuplicates := by
      simp [listInsert]
    refine ⟨importStatement, ?_, List.suffix_refl _⟩
    rwa [splitLines_joinLines (fun l hl => ?_) (List.ne_nil_of_mem hmem)]
    simp only [listInsert, List.mem_append, List.mem_cons] at hl
    rcases hl with hl | rfl | hl
    exacts [hlines l (List.mem_of_mem_take hl), hnl, hlines l (List.mem_of_mem_drop hl)]

/-! ## Lines other than imports

The scan skips a line only when it equals a trimmed import line seen before, so the lines it
skips are import lines, and the line it inserts is the import statement.  Every other line
comes out trimmed, whole and in its order (`addImportIfNotPresent_other_lines`). -/

/-- The lines of the text `add_import_if_not_present` returns are the lines its scan keeps,
with the import statement inserted where it inserts one. -/
theorem splitLines_addImportIfNotPresent (importStatement contents : List Char)
    (hnl : '\n' ∉ importStatement) :
    splitLines (addImportIfNotPresent importStatement contents) =
      let st := addImportScan importStatement 0 ⟨[], [], 1, false⟩ (splitLines contents)
      if st.containsImport then st.linesWithoutDuplicates
      else listInsert st.lastImport importStatement st.linesWithoutDuplicates := by
  have hlines := newline_not_mem_addImportScan importStatement contents
  have hcontains := addImportScan_containsImport importStatement 0 ⟨[], [], 1, false⟩
    (splitLines contents) (fun h => absurd h Bool.false_ne_true)
  unfold addImportIfNotPresent
  dsimp only
  split
  · next hc =>
    obtain ⟨l, hl, -⟩ := hcontains hc
    exact splitLines_joinLines hlines (List.ne_nil_of_mem hl)
  · refine splitLines_joinLines (fun l hl => ?_)
      (List.ne_nil_of_mem (List.mem_append_right _ (List.mem_cons_self importStatement _)))
    simp only [listInsert, List.mem_append, List.mem_cons] at hl
    rcases hl with hl | rfl | hl
    exacts [hlines l (List.mem_of_mem_take hl), hnl, hlines l (List.mem_of_mem_drop hl)]

/-- The scan drops only copies of import lines: the lines that are no import line come out
trimmed, whole and in their order. -/
theorem addImportScan_filter (importStatement : List Char) :
    ∀ (i : Nat) (st : AddImportState) (lines : List (List Char)),
      (∀ e ∈ st.existingImports, isImportLine e = true) →
      (addImportScan importStatement i st lines).linesWithoutDuplicates.filter
          (!isImportLine ·) =
        st.linesWithoutDuplicates.filter (!isImportLine ·) ++
          (lines.map rstrip).filter (!isImportLine ·)
  | _, st, [], _ => by simp [addImportScan]
  | i, st, line :: lines, h => by
    have hstep : (∀ e ∈ (addImportStep importStatement st i line).existingImports,
          isImportLine e = true) ∧
        (addImportStep importStatement st i line).linesWithoutDuplicates.filter
            (!isImportLine ·) =
          st.linesWithoutDuplicates.filter (!isImportLine ·) ++
            [rstrip line].filter (!isImportLine ·) := by
      unfold addImportStep
      split
      · next hmem => exact ⟨h, by simp [isImportLine_rstrip, h line hmem]⟩
      · split
        · next hi =>
          exact ⟨List.forall_mem_cons.mpr ⟨by rw [isImportLine_rstrip]; exact hi, h⟩,
            List.filter_append _ _⟩
        · exact ⟨h, List.filter_append _ _⟩
    rw [addImportScan, addImportScan_filter importStatement (i + 1) _ lines hstep.1, hstep.2,
      List.append_assoc, List.map_cons, ← List.filter_append]
    rfl

/-- `add_import_if_not_present` of an import line leaves every line that is no import line as
it was up to trailing blanks, and in its order: it drops only copies of import lines, and the
line it inserts is an import line. -/
theorem addImportIfNotPresent_other_lines (importStatement contents : List Char)
    (hi : isImportLine importStatement = true) (hnl : '\n' ∉ importStatement) :
    (splitLines (addImportIfNotPresent importStatement contents)).filter (!isImportLine ·) =
      ((splitLines contents).map rstrip).filter (!isImportLine ·) := by
  have hf := addImportScan_filter importStatement 0 ⟨[], [], 1, false⟩ (splitLines contents)
    (by simp)
  rw [splitLines_addImportIfNotPresent importStatement contents hnl]
  dsimp only
  split
  · simpa using hf
  · rw [listInsert, List.filter_append, List.filter_cons_of_neg (by simp [hi]),
      ← List.filter_append, List.take_append_drop]
    simpa using hf

theorem addImportIfNotPresent_other_lines_class :
    isImportLine "import b;".toList = true ∧ '\n' ∉ "import b;".toList ∧
      (splitLines (addImportIfNotPresent "import b;".toList
          "package p;\nimport a;\nimport a;\nclass A  ".toList)).filter (!isImportLine ·) =
        ((splitLines "package p;\nimport a;\nimport a;\nclass A  ".toList).map rstrip).filter
          (!isImportLine ·) :=
  ⟨by decide, by decide, addImportIfNotPresent_other_lines _ _ (by decide) (by decide)⟩

/-! ## The two loops as the spec states them

`keepFirstImports` reads the deduplication promise directly (keep each line, and after
an import line none of its later copies); the deduplication loop computes it.
`addImportReference` is the spec's three steps for `add_import_if_not_present`: trim, drop
the later copies of import lines, and insert before the last import line left.  The loop
differs from it where a line is skipped or differs only by trailing whitespace. -/

theorem length_dropCopies_lt (l : List Char) (ls : List (List Char)) :
    (if isImportLine l then ls.filter (· ≠ l) else ls).length < ls.length + 1 := by
  split
  · exact Nat.lt_succ_of_le (List.length_filter_le _ _)
  · exact Nat.lt_succ_self _

/-- The lines the deduplication promises to keep, in their order: each line, and after
an import line none of its later copies. -/
def keepFirstImports : List (List Char) → List (List Char)
  | [] => []
  | l :: ls => l :: keepFirstImports (if isImportLine l then ls.filter (· ≠ l) else ls)
termination_by ls => ls.length
decreasing_by exact length_dropCopies_lt l ls

@[simp] theorem keepFirstImports_nil : keepFirstImports [] = [] := by
  rw [keepFirstImports]

theorem keepFirstImports_cons (l : List Char) (ls : List (List Char)) :
    keepFirstImports (l :: ls) =
      l :: keepFirstImports (if isImportLine l then ls.filter (· ≠ l) else ls) := by
  rw [keepFirstImports]

/-- The loop with the set `existing` is the promised deduplication of the lines it has not
seen. -/
theorem dedupImports_eq_keepFirstImports_filter : ∀ (existing lines : List (List Char)),
    dedupImports existing lines = keepFirstImports (lines.filter (· ∉ existing))
  | _, [] => by simp [dedupImports, keepFirstImports]
  | existing, line :: lines => by
    unfold dedupImports
    split
    · next h =>
      rw [List.filter_cons_of_neg (by simpa using h)]
      exact dedupImports_eq_keepFirstImports_filter existing lines
    · next h =>
      rw [List.filter_cons_of_pos (by simpa using h), keepFirstImports_cons]
      split
      · rw [dedupImports_eq_keepFirstImports_filter, List.filter_filter]
        congr 2
        exact List.filter_congr fun l _ => by simp
      · rw [dedupImports_eq_keepFirstImports_filter]

theorem keepFirstImports_sublist (lines : List (List Char)) :
    (keepFirstImports lines).Sublist lines := by
  induction lines using keepFirstImports.induct with
  | case1 => simp [keepFirstImports]
  | case2 l ls ih =>
    rw [keepFirstImports_cons]
    refine (ih.trans ?_).cons₂ l
    split
    · exact List.filter_sublist _
    · exact List.Sublist.refl _

theorem mem_keepFirstImports {l : List Char} (lines : List (List Char)) (h : l ∈ lines) :
    l ∈ keepFirstImports lines := by
  induction lines using keepFirstImports.induct with
  | case1 => exact absurd h (List.not_mem_nil _)
  | case2 x xs ih =>
    rw [keepFirstImports_cons]
    by_cases hl : l = x
    · exact hl ▸ List.mem_cons_self _ _
    · have hxs : l ∈ xs := (List.mem_cons.mp h).resolve_left hl
      refine List.mem_cons_of_mem _ (ih ?_)
      split
      · exact List.mem_filter.mpr ⟨hxs, by simpa using hl⟩
      · exact hxs

/-- The index of the last import line, or `1` where there is none. -/
def lastImportIndex (lines : List (List Char)) : Nat :=
  ((lines.enum.filter fun p => isImportLine p.2).getLast?.map (·.1)).getD 1

/-- The spec's `add_import_if_not_present`: the right-trimmed lines, with the later copies
of import lines dropped, and the statement inserted before the last import line left (or at
index `1`) when no import line ends with it. -/
def addImportReference (importStatement contents : List Char) : List Char :=
  let kept := keepFirstImports ((splitLines contents).map rstrip)
  if kept.any fun l => isImportLine l && importStatement.isSuffixOf l then joinLines kept
  else joinLines (listInsert (lastImportIndex kept) importStatement kept)

set_option maxRecDepth 100000 in
/-- An import line repeated with a trailing blank escapes the loop's membership test, which
reads the untrimmed line; and a skipped copy shifts the list `last_import` indexes. -/
theorem addImportIfNotPresent_ne_reference :
    addImportIfNotPresent "import b;".toList "import a;\nimport a; ".toList =
        "import a;\nimport b;\nimport a;".toList ∧
      addImportReference "import b;".toList "import a;\nimport a; ".toList =
        "import b;\nimport a;".toList ∧
      addImportIfNotPresent "import c;".toList "import a;\nimport a;\nimport b;".toList =
        "import a;\nimport b;\nimport c;".toList ∧
      addImportReference "import c;".toList "import a;\nimport a;\nimport b;".toList =
        "import a;\nimport c;\nimport b;".toList := by
  have ha : keepFirstImports ["import a;".toList, "import a;".toList] = ["import a;".toList] := by
    rw [keepFirstImports_cons, if_pos (by decide), show ["import a;".toList].filter
      (· ≠ "import a;".toList) = [] by decide, keepFirstImports_nil]
  have hab : keepFirstImports ["import a;".toList, "import a;".toList, "import b;".toList] =
      ["import a;".toList, "import b;".toList] := by
    rw [keepFirstImports_cons, if_pos (by decide), show ["import a;".toList, "import b;".toList].filter
      (· ≠ "import a;".toList) = ["import b;".toList] by decide, keepFirstImports_cons, if_pos (by decide),
      show ([] : List (List Char)).filter (· ≠ "import b;".toList) = [] from rfl, keepFirstImports_nil]
  refine ⟨by decide, ?_, by decide, ?_⟩
  · rw [addImportReference, show (splitLines "import a;\nimport a; ".toList).map rstrip =
      ["import a;".toList, "import a;".toList] by decide, ha]
    decide
  · rw [addImportReference, show (splitLines "import a;\nimport a;\nimport b;".toList).map rstrip =
      ["import a;".toList, "import a;".toList, "import b;".toList] by decide, hab]
    decide

/-- An import added to a text without imports. -/
theorem addImportIfNotPresent_present_class :
    '\n' ∉ "import a.B;".toList ∧
      ∃ line ∈ splitLines (addImportIfNotPresent "import a.B;".toList "class A;".toList),
        "import a.B;".toList <:+ line :=
  have hnl : '\n' ∉ "import a.B;".toList := by decide
  ⟨hnl, addImportIfNotPresent_present _ _ hnl⟩

end SdkMigration.Convert

namespace SdkMigration.ScriptsConvert

open Convert Regex

/-- The remapping table of `scripts/convert.py`. -/
def imports : List (String × String) := [
  ("com.applause.auto.pageobjectmodel.elements.BaseElement",
    "com.applause.auto.pageobjectmodel.base.BaseElement"),
  ("com.applause.allure.appenders", "com.applause.auto.helpers.allure.appenders"),
  ("com.applause.allure", "com.applause.auto.helpers.allure"),
  ("com.applause.email", "com.applause.auto.helpers.email"),
  ("com.applause.google", "com.applause.auto.helpers.google"),
  ("com.applause.http.mapping", "com.applause.auto.helpers.http.mapping"),
  ("com.applause.http.restassured.client", "com.applause.auto.helpers.http.restassured.client"),
  ("com.applause.http.restassured", "com.applause.auto.helpers.http.restassured"),
  ("com.applause.jira.annotations.scanner",
    "com.applause.auto.helpers.jira.annotations.scanner"),
  ("com.applause.jira.annotations", "com.applause.auto.helpers.jira.annotations"),
  ("com.applause.jira.clients.modules.jira",
    "com.applause.auto.helpers.jira.clients.modules.jira"),
  ("com.applause.jira.clients.modules.xray",
    "com.applause.auto.helpers.jira.clients.modules.xray"),
  ("com.applause.jira.clients", "com.applause.auto.helpers.jira.clients"),
  ("com.applause.jira.constants", "com.applause.auto.helpers.jira.constants"),
  ("com.applause.jira.dto.jql", "com.applause.auto.helpers.jira.dto.jql"),
  ("com.applause.jira.dto.requestmappers", "com.applause.auto.helpers.jira.dto.requestmappers"),
  ("com.applause.jira.dto.responsemappers.iteration",
    "com.applause.auto.helpers.jira.dto.responsemappers.iteration"),
  ("com.applause.jira.dto.responsemappers.steps",
    "com.applause.auto.helpers.jira.dto.responsemappers.steps"),
  ("com.applause.jira.dto.responsemappers",
    "com.applause.auto.helpers.jira.dto.responsemappers"),
  ("com.applause.jira.dto.shared", "com.applause.auto.helpers.jira.dto.shared"),
  ("com.applause.jira.exceptions", "com.applause.auto.helpers.jira.exceptions"),
  ("com.applause.jira.helper", "com.applause.auto.helpers.jira.helper"),
  ("com.applause.jira.listeners", "com.applause.auto.testng.listeners"),
  ("com.applause.jira.restclient", "com.applause.auto.helpers.jira.restclient"),
  ("com.applause.mobile.deeplinks", "com.applause.auto.helpers.mobile.deeplinks"),
  ("com.applause.mobile.file_uploading.SauceLabs",
    "com.applause.auto.helpers.mobile.fileuploading.saucelabs"),
  ("com.applause.mobile", "com.applause.auto.helpers.mobile"),
  ("com.applause.testdata.yaml", "com.applause.auto.helpers.testdata.yaml"),
  ("com.applause.testdata", "com.applause.auto.helpers.testdata"),
  ("com.applause.util", "com.applause.auto.helpers.util"),
  ("com.applause.web", "com.applause.auto.helpers.web")]

/-- Every pattern of the table holds the literal word `com`, at its start. -/
theorem imports_open : ∀ r ∈ imports, "com".toList.map Atom.lit <:+: parse r.1.toList := by
  decide

/-- `replace_imports` of `scripts/convert.py`. -/
def replaceImports (contents : List Char) : List Char := replaceImportsWith imports contents

/-- The remapping table as rules of patterns and words. -/
def importRules : List (List Atom × List Char) :=
  imports.map fun r => (parse r.1.toList, r.2.toList)

set_option maxRecDepth 100000 in
/-- Every old and every new name begins with `com`, found nowhere else in them; the new names
begin with `com.applause.auto.`, which no old name after the first fits; and of two old
names that can fit at one place the earlier is at least as long. -/
theorem importRules_headed :
    Headed false "com".toList "com.applause.auto.".toList importRules := by
  decide

/-- The remapping loop of `replace_imports` is one left-to-right scan: at each position the
new name of the longest old name that fits there takes its place, and the scan resumes after
it. -/
theorem remapImports_eq_longestScan (t : List Char) :
    remapImports imports t = longestScan false importRules t := by
  rw [remapImports, ← foldl_sub_eq_longestScan importRules_headed.sequential, importRules,
    List.foldl_map]
  rfl

end SdkMigration.ScriptsConvert

namespace SdkMigration.TopConvert

open Convert

/-- The remapping table of `convert.py`. -/
def imports : List (String × String) := [
  ("com.applause.auto.pageobjectmodel.elements.BaseElement",
    "com.applause.auto.pageobjectmodel.base.BaseElement")]

/-- `replace_imports` of `convert.py`. -/
def replaceImports (contents : List Char) : List Char := replaceImportsWith imports contents

end SdkMigration.TopConvert
