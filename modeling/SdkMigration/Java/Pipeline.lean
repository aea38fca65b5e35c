import SdkMigration.Java.Rewrites
import SdkMigration.Java.SdkHelper

/-!
# The text pipeline of `convert_java`

`convert_java` reads a file, runs five passes over its text in a fixed order, and collects
the warning of `check_for_sub_components` on the result.  `convertJavaTextWith` is that
composition for a remapping table; the file effects and the warnings are in
`SdkMigration.Cli`.

The spec promises two laws of this composition, idempotence and unique import lines, and
both fail for the same reason: deduplication is the first pass, and the passes after it edit
lines, import lines included, without deduplicating again.  Two import lines that differ
only in what the accessor rewrite changes leave the pipeline equal, and only a second run
drops one of them.

What does hold is that deduplication leaves no two equal import lines
(`nodup_imports_replaceImportsWith`), which the later passes keep where no import line is one
they edit (`SdkMigration.Java.ImportLines`), and that the later passes are idempotent: the output
has no window of either accessor pattern and no match of the factory loop's search, so a
second run differs from the first only through `replace_imports` and `fix_locators`
(`convertJavaTextWith_idem_of_fixed`).
-/

namespace SdkMigration.Convert

open Regex

/-- The five passes of `convert_java`, for a remapping table. -/
def convertJavaTextWith (imports : List (String × String)) (contents : List Char) : List Char :=
  removeSdkHelperCreate (checkForConfigUsage (checkForApplauseConfigUsage
    (fixLocators (replaceImportsWith imports contents))))

/-- The import lines of a text. -/
def importLines (contents : List Char) : List (List Char) :=
  (splitLines contents).filter isImportLine

/-! ## Deduplication -/

/-- The deduplication loop keeps no import line twice and none it had already seen. -/
theorem dedupImports_nodup : ∀ (existing lines : List (List Char)),
    ((dedupImports existing lines).filter isImportLine).Nodup ∧
      ∀ l ∈ (dedupImports existing lines).filter isImportLine, l ∉ existing
  | _, [] => by simp [dedupImports]
  | existing, line :: lines => by
    unfold dedupImports
    split
    · exact dedupImports_nodup existing lines
    · next hnot =>
      split
      · next himp =>
        obtain ⟨hnd, hfresh⟩ := dedupImports_nodup (line :: existing) lines
        simp only [List.filter_cons, himp, if_true, List.nodup_cons, List.mem_cons, not_or]
        exact ⟨⟨fun h => (hfresh line h) (List.mem_cons_self _ _), hnd⟩,
          fun l hl => by
            rcases hl with rfl | hl
            · exact hnot
            · exact fun h => hfresh l hl (List.mem_cons_of_mem _ h)⟩
      · next himp =>
        simp only [List.filter_cons, himp, Bool.false_eq_true, if_false]
        exact dedupImports_nodup existing lines

/-- The deduplication loop drops nothing from the front of a nonempty list: its first line
is never in the empty set. -/
theorem dedupImports_ne_nil {lines : List (List Char)} (h : lines ≠ []) :
    dedupImports [] lines ≠ [] := by
  obtain ⟨l, ls, rfl⟩ := List.exists_cons_of_ne_nil h
  unfold dedupImports
  split
  · simp_all
  · split <;> simp

/-- Every line the deduplication loop keeps is one of its input lines. -/
theorem mem_of_mem_dedupImports : ∀ {existing lines : List (List Char)} {l : List Char},
    l ∈ dedupImports existing lines → l ∈ lines
  | _, [], _, h => by simp [dedupImports] at h
  | existing, line :: lines, l, h => by
    unfold dedupImports at h
    split at h
    · exact List.mem_cons_of_mem _ (mem_of_mem_dedupImports h)
    · split at h <;>
      · rcases List.mem_cons.mp h with rfl | h
        · exact List.mem_cons_self _ _
        · exact List.mem_cons_of_mem _ (mem_of_mem_dedupImports h)

/-- For every text, the deduplication loop of `replace_imports` returns lines of the text in
their order: every line that is not an import line and the first copy of each import line,
dropping exactly the later copies of import lines.  So no two import lines it returns are
equal, and every line of the text is among them. -/
theorem dedupImports_eq_keepFirstImports (t : List Char) :
    dedupImports [] (splitLines t) = keepFirstImports (splitLines t) ∧
      (dedupImports [] (splitLines t)).Sublist (splitLines t) ∧
      ((dedupImports [] (splitLines t)).filter isImportLine).Nodup ∧
      ∀ l ∈ splitLines t, l ∈ dedupImports [] (splitLines t) := by
  have h := dedupImports_eq_keepFirstImports_filter [] (splitLines t)
  rw [List.filter_eq_self.mpr fun _ _ => by simp] at h
  exact ⟨h, h ▸ keepFirstImports_sublist _, (dedupImports_nodup [] _).1,
    fun l hl => h ▸ mem_keepFirstImports _ hl⟩

/-- After `replace_imports`, no two import lines of the text are equal. -/
theorem nodup_imports_replaceImportsWith (imports : List (String × String))
    (t : List Char) : (importLines (replaceImportsWith imports t)).Nodup := by
  unfold importLines replaceImportsWith
  rw [splitLines_joinLines
    (fun l hl => newline_not_mem_of_mem_splitLines (mem_of_mem_dedupImports hl))
    (dedupImports_ne_nil (splitLines_ne_nil _))]
  exact (dedupImports_nodup [] _).1

/-! ## A second run -/

theorem applauseAccessor_spliceSafe : SpliceSafe applauseAccessor := by decide

theorem configAccessor_spliceSafe : SpliceSafe configAccessor := by decide

/-- The pipeline's output has no window of either accessor pattern: the accessor passes leave
none and the factory loop creates none. -/
theorem count_accessors_convertJavaTextWith (imports : List (String × String))
    (t : List Char) :
    count false applauseAccessor (convertJavaTextWith imports t) = 0 ∧
      count false configAccessor (convertJavaTextWith imports t) = 0 := by
  obtain ⟨ha, hc⟩ := count_accessors (fixLocators (replaceImportsWith imports t))
  exact ⟨Nat.eq_zero_of_le_zero
      ((count_removeSdkHelperCreate_le applauseAccessor_spliceSafe _).trans ha.le),
    Nat.eq_zero_of_le_zero
      ((count_removeSdkHelperCreate_le configAccessor_spliceSafe _).trans hc.le)⟩

/-- Where `replace_imports` and `fix_locators` leave the pipeline's output as it is, a second
run of the pipeline changes nothing: the accessor passes find nothing to rewrite, and the
factory loop has already run to its end. -/
theorem convertJavaTextWith_idem_of_fixed (imports : List (String × String)) (t : List Char)
    (hI : replaceImportsWith imports (convertJavaTextWith imports t) =
      convertJavaTextWith imports t)
    (hF : fixLocators (convertJavaTextWith imports t) = convertJavaTextWith imports t) :
    convertJavaTextWith imports (convertJavaTextWith imports t) =
      convertJavaTextWith imports t := by
  obtain ⟨ha, hc⟩ := count_accessors_convertJavaTextWith imports t
  rw [convertJavaTextWith.eq_1 imports (convertJavaTextWith imports t), hI, hF,
    accessors_eq_self ha hc]
  exact removeSdkHelperCreate_idem _

set_option maxRecDepth 100000 in
theorem convertJavaTextWith_idem_accessorCall :
    replaceImportsWith TopConvert.imports
        (convertJavaTextWith TopConvert.imports "EnvironmentConfigurationManager.get();".toList) =
      convertJavaTextWith TopConvert.imports "EnvironmentConfigurationManager.get();".toList ∧
    fixLocators
        (convertJavaTextWith TopConvert.imports "EnvironmentConfigurationManager.get();".toList) =
      convertJavaTextWith TopConvert.imports "EnvironmentConfigurationManager.get();".toList ∧
    convertJavaTextWith TopConvert.imports
        (convertJavaTextWith TopConvert.imports "EnvironmentConfigurationManager.get();".toList) =
      convertJavaTextWith TopConvert.imports "EnvironmentConfigurationManager.get();".toList := by
  have hJ : convertJavaTextWith TopConvert.imports "EnvironmentConfigurationManager.get();".toList =
      "EnvironmentConfigurationManager.INSTANCE.get()();".toList := by
    decide
  have hI : replaceImportsWith TopConvert.imports
      (convertJavaTextWith TopConvert.imports "EnvironmentConfigurationManager.get();".toList) =
      convertJavaTextWith TopConvert.imports "EnvironmentConfigurationManager.get();".toList := by
    rw [hJ]; decide
  have hF : fixLocators
      (convertJavaTextWith TopConvert.imports "EnvironmentConfigurationManager.get();".toList) =
      convertJavaTextWith TopConvert.imports "EnvironmentConfigurationManager.get();".toList := by
    rw [hJ]; exact fixLocators_eq_self (by decide)
  exact ⟨hI, hF, convertJavaTextWith_idem_of_fixed _ _ hI hF⟩

/-- On a text with no rule's leading word and no `@Locate`, the first two passes only
deduplicate. -/
theorem convertJavaTextWith_eq_of_plain {w : List Char}
    {imports : List (String × String)} (h : ∀ r ∈ imports, w.map .lit <:+: parse r.1.toList)
    {t : List Char} (ht : ¬w <:+: t)
    (hl : ¬"@Locate".toList <:+: joinLines (dedupImports [] (splitLines t))) :
    convertJavaTextWith imports t = removeSdkHelperCreate (checkForConfigUsage
      (checkForApplauseConfigUsage (joinLines (dedupImports [] (splitLines t))))) := by
  rw [convertJavaTextWith, replaceImportsWith_eq_dedup h ht, fixLocators_eq_self hl]

end SdkMigration.Convert

namespace SdkMigration.ScriptsConvert

open Convert

/-- The text transformation of `convert_java` in `scripts/convert.py`. -/
def convertJavaText (contents : List Char) : List Char := convertJavaTextWith imports contents

set_option maxRecDepth 100000 in
/-- The `Strategy` import is added only when a table entry's pattern string, backslashes
included, occurs in the text, which a real locator never does. -/
theorem convertJavaText_css_locator :
    convertJavaText "@Locate(css = \".btn\")".toList =
        "@Locate(using = Strategy.CSS, value = \".btn\")".toList ∧
      strategyImport.toList ∉ splitLines (convertJavaText "@Locate(css = \".btn\")".toList) := by
  have h : convertJavaText "@Locate(css = \".btn\")".toList =
      "@Locate(using = Strategy.CSS, value = \".btn\")".toList := by
    rw [convertJavaText, convertJavaTextWith,
      replaceImportsWith_eq_dedup imports_open (by decide)]
    decide
  exact ⟨h, by rw [h]; decide⟩

set_option maxRecDepth 100000 in
/-- Two import lines that differ before the accessor rewrite and agree after it. -/
theorem convertJavaText_accessorImports :
    convertJavaText ("import EnvironmentConfigurationManager.INSTANCE.get()();\n" ++
        "import EnvironmentConfigurationManager.get();").toList =
      ("import EnvironmentConfigurationManager.INSTANCE.get()();\n" ++
        "import EnvironmentConfigurationManager.INSTANCE.get()();").toList := by
  rw [convertJavaText, convertJavaTextWith_eq_of_plain imports_open (by decide)
    (by decide)]
  decide

set_option maxRecDepth 100000 in
/-- A second run drops the import line the first run duplicated. -/
theorem convertJavaText_twice_ne :
    convertJavaText (convertJavaText ("import EnvironmentConfigurationManager.INSTANCE.get()();\n" ++
        "import EnvironmentConfigurationManager.get();").toList) ≠
      convertJavaText ("import EnvironmentConfigurationManager.INSTANCE.get()();\n" ++
        "import EnvironmentConfigurationManager.get();").toList := by
  rw [convertJavaText_accessorImports, convertJavaText,
    convertJavaTextWith_eq_of_plain imports_open (by decide) (by decide)]
  decide

end SdkMigration.ScriptsConvert

namespace SdkMigration.TopConvert

open Convert

/-- The text transformation of `convert_java` in `convert.py`. -/
def convertJavaText (contents : List Char) : List Char := convertJavaTextWith imports contents

end SdkMigration.TopConvert
