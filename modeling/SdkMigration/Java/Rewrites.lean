import SdkMigration.Java.Imports

/-!
# The rewrite passes of `convert_java`: locators, accessors, and the locator check

`fix_locators` has two loops over one table of fourteen legacy spellings.  The first calls
`add_import_if_not_present` for the `Strategy` import once, as soon as some entry of the
table is a substring of the text, and the second runs the table's `re.sub` rules in order.
The first loop tests the pattern *string* with `in`, backslashes included, not the
pattern, and the model keeps that test as written.

The two accessor passes are `re.sub` calls with unescaped patterns, so `.` admits any
character and `()` is an empty group, and `check_for_sub_components` scans the matches of
`@Locate\(.*\)` with `re.finditer` and warns at the first whose text lacks `using`.

`check_for_get_web_element` is defined in both scripts but never called, so it is left out.
-/

namespace SdkMigration.Convert

open Regex

/-- The table of `fix_locators`: legacy pattern and new arguments, in the source's order. -/
def locators : List (String × String) := [
  ("@Locate\\(\\s*id = ", "using = Strategy.ID, value = "),
  ("@Locate\\(\\s*css = ", "using = Strategy.CSS, value = "),
  ("@Locate\\(\\s*xpath = ", "using = Strategy.XPATH, value = "),
  ("@Locate\\(\\s*className = ", "using = Strategy.CLASSNAME, value = "),
  ("@Locate\\(\\s*name = ", "using = Strategy.NAME, value = "),
  ("@Locate\\(\\s*tagName = ", "using = Strategy.TAGNAME, value = "),
  ("@Locate\\(\\s*linkText = ", "using = Strategy.LINKTEXT, value = "),
  ("@Locate\\(\\s*accessibilityId = ", "using = Strategy.ACCESSIBILITYID, value = "),
  ("@Locate\\(\\s*androidUIAutomator = ", "using = Strategy.ANDROID_UIAUTOMATOR, value = "),
  ("@Locate\\(\\s*iOSClassChain = ", "using = Strategy.IOS_CLASSCHAIN, value = "),
  ("@Locate\\(\\s*iOSNsPredicate = ", "using = Strategy.IOS_NSPREDICATE, value = "),
  ("@Locate\\(\\s*appiumClassName = ", "using = Strategy.APPIUM_CLASSNAME, value = "),
  ("@Locate\\(\\s*jQuery = ", "using = Strategy.JQUERY, value = "),
  ("@Locate\\(\\s*javascript = ", "using = Strategy.JAVASCRIPT, value = ")]

/-- The import statement `fix_locators` adds. -/
def strategyImport : String := "import com.applause.auto.pageobjectmodel.base.Strategy;"

/-- `fix_locators(contents)`. -/
def fixLocators (contents : List Char) : List Char :=
  let contents :=
    if locators.any fun l => decide (l.1.toList <:+: contents) then
      addImportIfNotPresent strategyImport.toList contents
    else contents
  locators.foldl (fun c l => reSub l.1 ("@Locate(" ++ l.2) c) contents

/-- Every entry of the table holds `@Locate`, as a string and as a pattern. -/
theorem locators_open : ∀ l ∈ locators, "@Locate".toList <:+: l.1.toList ∧
    "@Locate".toList.map Atom.lit <:+: parse l.1.toList := by
  decide

/-- A text without `@Locate` has no legacy locator, and `fix_locators` leaves it as it is. -/
theorem fixLocators_eq_self {contents : List Char} (h : ¬"@Locate".toList <:+: contents) :
    fixLocators contents = contents := by
  have htrig : (locators.any fun l => decide (l.1.toList <:+: contents)) = false :=
    List.any_eq_false.mpr fun l hl hin =>
      h ((locators_open l hl).1.trans (of_decide_eq_true hin))
  simp only [fixLocators, htrig, Bool.false_eq_true, if_false]
  exact foldl_reSub_eq_self Prod.fst _ (fun l hl => (locators_open l hl).2) h

/-- `check_for_applause_config_usage(contents)`. -/
def checkForApplauseConfigUsage (contents : List Char) : List Char :=
  reSub "ApplauseEnvironmentConfigurationManager.get()"
    "ApplauseEnvironmentConfigurationManager.INSTANCE.get()" contents

/-- `check_for_config_usage(contents)`. -/
def checkForConfigUsage (contents : List Char) : List Char :=
  reSub "EnvironmentConfigurationManager.get()"
    "EnvironmentConfigurationManager.INSTANCE.get()" contents

/-- The accessor rewrite as two literal replacements, the `Applause` accessor first, which
is how the spec reads the two passes. -/
def literalAccessorRewrite (contents : List Char) : List Char :=
  strReplace "EnvironmentConfigurationManager.get()".toList
    "EnvironmentConfigurationManager.INSTANCE.get()".toList
    (strReplace "ApplauseEnvironmentConfigurationManager.get()".toList
      "ApplauseEnvironmentConfigurationManager.INSTANCE.get()".toList contents)

set_option maxRecDepth 100000 in
/-- The unescaped pattern stops before `()`, which the replacement repeats. -/
theorem accessorPasses_ne_literal :
    checkForConfigUsage (checkForApplauseConfigUsage
        "EnvironmentConfigurationManager.get()".toList) =
      "EnvironmentConfigurationManager.INSTANCE.get()()".toList ∧
    literalAccessorRewrite "EnvironmentConfigurationManager.get()".toList =
      "EnvironmentConfigurationManager.INSTANCE.get()".toList := by
  decide

/-- The pattern of `check_for_applause_config_usage`, parsed. -/
def applauseAccessor : List Atom := parse "ApplauseEnvironmentConfigurationManager.get()".toList

/-- The pattern of `check_for_config_usage`, parsed. -/
def configAccessor : List Atom := parse "EnvironmentConfigurationManager.get()".toList

/-! ## The accessor passes leave no match

Both accessor patterns are fixed-width: `.` is one character and `()` an empty group.  Each
replacement is clean for its own pattern and the second one is clean for the first, so after
the two passes neither pattern has a window left (`count_accessors`), and where neither has
one the passes change nothing (`accessors_eq_self`). -/

theorem applauseAccessor_fixed : Fixed applauseAccessor := by decide

theorem configAccessor_fixed : Fixed configAccessor := by decide

theorem applauseAccessor_clean :
    Clean false applauseAccessor "ApplauseEnvironmentConfigurationManager.INSTANCE.get()".toList ∧
      Clean false applauseAccessor "EnvironmentConfigurationManager.INSTANCE.get()".toList := by
  decide

theorem configAccessor_clean :
    Clean false configAccessor "EnvironmentConfigurationManager.INSTANCE.get()".toList := by
  decide

/-- After the two accessor passes neither accessor pattern has a window. -/
theorem count_accessors (contents : List Char) :
    count false applauseAccessor (checkForConfigUsage (checkForApplauseConfigUsage contents)) = 0 ∧
      count false configAccessor (checkForConfigUsage (checkForApplauseConfigUsage contents)) = 0 := by
  have h1 : count false applauseAccessor (checkForApplauseConfigUsage contents) = 0 := by
    simpa using count_sub_self applauseAccessor_fixed applauseAccessor_clean.1 [] contents rfl
  have h2 := count_sub_le configAccessor_fixed applauseAccessor_clean.2 []
    (checkForApplauseConfigUsage contents)
  simp only [List.nil_append, h1] at h2
  exact ⟨Nat.eq_zero_of_le_zero h2,
    by simpa using count_sub_self configAccessor_fixed configAccessor_clean [] _ rfl⟩

/-- Where neither accessor pattern has a window, the accessor passes change nothing. -/
theorem accessors_eq_self {contents : List Char}
    (ha : count false applauseAccessor contents = 0) (hc : count false configAccessor contents = 0) :
    checkForConfigUsage (checkForApplauseConfigUsage contents) = contents := by
  have h : checkForApplauseConfigUsage contents = contents :=
    sub_eq_self_of_count applauseAccessor_fixed ha
  rw [h]
  exact sub_eq_self_of_count configAccessor_fixed hc

/-- A second run of the two accessor passes changes nothing. -/
theorem accessorPasses_idem (contents : List Char) :
    checkForConfigUsage (checkForApplauseConfigUsage
        (checkForConfigUsage (checkForApplauseConfigUsage contents))) =
      checkForConfigUsage (checkForApplauseConfigUsage contents) :=
  accessors_eq_self (count_accessors contents).1 (count_accessors contents).2

/-- The warning of `check_for_sub_components`. -/
def subComponentWarning : String :=
  "@Locate annotation found without an underlying locator. If no locator is tied to the " ++
    "element, please add the @SubComponent annotation."

/-- `check_for_sub_components(contents)`: `some` warning, or `None`. -/
def checkForSubComponents (contents : List Char) : Option String :=
  if (finditer false (parse "@Locate\\(.*\\)".toList) contents).any
      fun m => !decide ("using".toList <:+: m) then
    some subComponentWarning
  else none

/-! ## What the locator check reads

The check's pattern stays on one line, and its `.*` is greedy: on each line it matches from
the first `@Locate(` to the last `)` of the line, whatever lies between, and a line with no
`)` after its first `@Locate(` has no match.  So the check warns exactly when some such span
lacks `using` (`checkForSubComponents_eq_some_iff`).  That is not the annotation's argument
list: a `using` later on the line silences the check (`checkForSubComponents_using_later`),
and an annotation whose arguments continue on the next line is not read at all. -/

/-- The pattern of `check_for_sub_components`. -/
def locatePattern : List Atom := parse "@Locate\\(.*\\)".toList

theorem locatePattern_eq :
    locatePattern = "@Locate(".toList.map .lit ++ [.star .any, .lit ')'] := by
  decide

theorem locatePattern_oneLine : OneLine false locatePattern := by decide

/-- A text's prefix up to and including its last `)`, if it has one. -/
def upToLastParen : List Char → Option (List Char)
  | [] => none
  | c :: s =>
    match upToLastParen s with
    | some m => some (c :: m)
    | none => if c = ')' then some [')'] else none

/-- The part of a line from its first `@Locate(` to the last `)` after it. -/
def locateSpan : List Char → Option (List Char)
  | [] => none
  | c :: s =>
    if "@Locate(".toList.isPrefixOf (c :: s) then
      (upToLastParen ((c :: s).drop 8)).map ("@Locate(".toList ++ ·)
    else locateSpan s

theorem upToLastParen_eq_none : ∀ {w : List Char}, upToLastParen w = none ↔ ')' ∉ w
  | [] => by simp [upToLastParen]
  | c :: s => by
    cases h : upToLastParen s with
    | some m =>
      have hs : ')' ∈ s := by
        by_contra hn
        rw [upToLastParen_eq_none.mpr hn] at h
        cases h
      simp [upToLastParen, h, hs]
    | none =>
      have hs := upToLastParen_eq_none.mp h
      by_cases hc : c = ')' <;> simp [upToLastParen, h, hc, hs, eq_comm]

theorem upToLastParen_eq_some : ∀ {w m : List Char}, upToLastParen w = some m →
    ∃ mid post, m = mid ++ [')'] ∧ w = mid ++ ')' :: post ∧ ')' ∉ post
  | [], _, h => by simp [upToLastParen] at h
  | c :: s, m, h => by
    cases hs : upToLastParen s with
    | some m' =>
      simp only [upToLastParen, hs, Option.some.injEq] at h
      obtain ⟨mid, post, rfl, rfl, hpost⟩ := upToLastParen_eq_some hs
      exact ⟨c :: mid, post, h.symm, rfl, hpost⟩
    | none =>
      simp only [upToLastParen, hs] at h
      split at h
      · next hc =>
        cases h
        exact ⟨[], s, rfl, by rw [hc]; rfl, upToLastParen_eq_none.mp hs⟩
      · cases h

theorem locateHead_fixed : ∀ a ∈ "@Locate(".toList.map Atom.lit, a.fixed := by decide

/-- Past `@Locate(`, the greedy `.*` runs to the last `)` of the line. -/
theorem matchAt_locate {mid post : List Char} (hmid : '\n' ∉ mid) (hpost : ')' ∉ post) :
    matchAt false locatePattern ("@Locate(".toList ++ (mid ++ ')' :: post)) = some post := by
  rw [locatePattern_eq, matchAt_append_of_fixed _ _ locateHead_fixed,
    fits_append_of_le _ (by decide), if_pos (by decide), List.drop_left' (by decide),
    matchAt.eq_4]
  refine starMatch_eq_some (by simp [matchAt]) (fun v w e hv _ => ?_) mid fun d hd => ?_
  · obtain ⟨x, v', rfl⟩ := List.exists_cons_of_ne_nil hv
    obtain ⟨-, rfl⟩ := List.cons_eq_cons.mp e
    cases w with
    | nil => rfl
    | cons d w =>
      have hd : d ≠ ')' := fun h => hpost (h ▸ List.mem_append_right _ (List.mem_cons_self _ _))
      simp [matchAt, hd]
  · simp only [CharClass.test, Bool.false_or, bne_iff_ne, ne_eq]
    rintro rfl
    exact hmid hd

theorem matchAt_locate_eq_none_of_paren {u : List Char} (h : ')' ∉ u) :
    matchAt false locatePattern u = none := by
  have hpat : locatePattern = ("@Locate(".toList.map .lit ++ [.star .any]) ++ [')'].map .lit ++ [] :=
    by decide
  refine Option.not_isSome_iff_eq_none.mp fun hs => h ?_
  rw [hpat] at hs
  exact (infix_of_matchAt_isSome _ u hs).subset (List.mem_singleton_self _)

theorem matchAt_locate_eq_none_of_isPrefixOf {u : List Char}
    (h : "@Locate(".toList.isPrefixOf u = false) : matchAt false locatePattern u = none := by
  rw [locatePattern_eq, matchAt_append_of_fixed _ _ locateHead_fixed, fits_lits, h]
  rfl

theorem finditer_locate_eq_nil : ∀ {u : List Char}, ')' ∉ u → finditer false locatePattern u = []
  | [], _ => by decide
  | c :: u, h => by
    rw [finditer, scan_cons_of_none (matchAt_locate_eq_none_of_paren h), List.filterMap_cons]
    exact finditer_locate_eq_nil fun h' => h (List.mem_cons_of_mem _ h')

/-- On one line, `re.finditer` finds the span from the first `@Locate(` to the last `)`. -/
theorem finditer_locate_line : ∀ l : List Char, '\n' ∉ l →
    finditer false locatePattern l = (locateSpan l).toList
  | [], _ => by decide
  | c :: s, hl => by
    by_cases hpre : "@Locate(".toList.isPrefixOf (c :: s) = true
    · obtain ⟨w, hw⟩ := List.isPrefixOf_iff_prefix.mp hpre
      rw [locateSpan, if_pos hpre, ← hw, List.drop_left' (by decide)]
      cases hu : upToLastParen w with
      | none =>
        have hw' := upToLastParen_eq_none.mp hu
        exact finditer_locate_eq_nil (by simp [hw'])
      | some m =>
        obtain ⟨mid, post, rfl, rfl, hpost⟩ := upToLastParen_eq_some hu
        have hmid : '\n' ∉ mid := fun h => hl (hw ▸ by simp [h])
        rw [finditer, scan_of_some (matchAt_locate hmid hpost) (by simp; omega), List.filterMap_cons]
        simp only [Option.map_some', Option.toList_some]
        have htake : ("@Locate(".toList ++ (mid ++ ')' :: post)).take
            (("@Locate(".toList ++ (mid ++ ')' :: post)).length - post.length) =
              "@Locate(".toList ++ (mid ++ [')']) := by
          rw [show "@Locate(".toList ++ (mid ++ ')' :: post) =
            ("@Locate(".toList ++ (mid ++ [')'])) ++ post by simp]
          exact List.take_left' (by simp only [List.length_append]; omega)
        exact congrArg₂ List.cons htake (finditer_locate_eq_nil hpost)
    · rw [locateSpan, if_neg hpre, ← finditer_locate_line s fun h => hl (List.mem_cons_of_mem _ h),
        finditer, scan_cons_of_none (matchAt_locate_eq_none_of_isPrefixOf (Bool.eq_false_iff.mpr hpre)),
        List.filterMap_cons]
      rfl

/-- `check_for_sub_components` warns exactly when some line's span, from its first
`@Locate(` to the last `)` after it, lacks `using`. -/
theorem checkForSubComponents_eq_some_iff (t : List Char) :
    checkForSubComponents t = some subComponentWarning ↔
      ∃ l ∈ splitLines t, ∃ span, locateSpan l = some span ∧ ¬"using".toList <:+: span := by
  have h : finditer false locatePattern t = (splitLines t).flatMap fun l => (locateSpan l).toList := by
    rw [finditer_eq_flatMap_splitLines locatePattern_oneLine]
    exact List.flatMap_congr fun l hl => finditer_locate_line l (newline_not_mem_of_mem_splitLines hl)
  unfold checkForSubComponents
  rw [show parse "@Locate\\(.*\\)".toList = locatePattern from rfl, h]
  simp only [List.any_flatMap, List.any_eq_true, Option.mem_toList, Bool.not_eq_true',
    decide_eq_false_iff_not, ite_eq_left_iff, reduceCtorEq, imp_false, not_not]
  exact exists_congr fun l => and_congr_right fun _ =>
    ⟨fun ⟨sp, h1, h2⟩ => ⟨sp, Option.mem_def.mp h1, h2⟩, fun ⟨sp, h1, h2⟩ => ⟨sp, h1, h2⟩⟩

/-- The text after an opening `(` up to its matching `)`, both excluded. -/
def matchingParen : Nat → List Char → Option (List Char)
  | _, [] => none
  | 0, ')' :: _ => some []
  | d + 1, ')' :: s => (matchingParen d s).map (')' :: ·)
  | d, '(' :: s => (matchingParen (d + 1) s).map ('(' :: ·)
  | d, c :: s => (matchingParen d s).map (c :: ·)

/-- The argument lists of the `@Locate(` annotations of a text, each from its `(` to the
matching `)`. -/
def locateArgLists : List Char → List (List Char)
  | [] => []
  | c :: s =>
    (if "@Locate(".toList.isPrefixOf (c :: s) then
      ((matchingParen 0 ((c :: s).drop 8)).map fun a => '(' :: a ++ [')']).toList
    else []) ++ locateArgLists s

set_option maxRecDepth 100000 in
/-- An annotation without a locator, on a line that uses `using` after it. -/
theorem checkForSubComponents_using_later :
    checkForSubComponents "@Locate(id = \"a\") Foo f = find(using);".toList = none ∧
      (locateArgLists "@Locate(id = \"a\") Foo f = find(using);".toList).any
        (fun a => !decide ("using".toList <:+: a)) = true := by
  decide

end SdkMigration.Convert
