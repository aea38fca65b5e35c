import SdkMigration.Window

/-!
# `convert_pom`: the build-descriptor rewrite

`convert_pom` runs a table of `re.sub` rules over the whole `pom.xml` text.  The table of
`convert.py` has four rules and no flags; the table of `scripts/convert.py` adds three rules
and passes `re.DOTALL | re.MULTILINE` to every call, so that `.` also admits a newline.
`convertPomTextWith` takes the flag and the table; each script's `convertPomText` applies
it to its own.

The last rule of `scripts/convert.py` is the only one whose replacement string is a raw
string with escapes, `\n` and `\1`, which `re.sub` expands (`expandTemplate`); its group 1
is the whole pattern.
-/

namespace SdkMigration.Convert

open Regex

/-- `re.sub`'s expansion of a replacement template: `\n` is a newline and `\1` the text of
group 1, here the whole match; these are the only escapes the templates of the scripts
use. -/
def expandTemplate (group1 : List Char) : List Char → List Char
  | [] => []
  | '\\' :: 'n' :: r => '\n' :: expandTemplate group1 r
  | '\\' :: '1' :: r => group1 ++ expandTemplate group1 r
  | c :: r => c :: expandTemplate group1 r

/-- `re.sub(old_line, new_line, new_pom, flags=...)` for one rule of a table. -/
def pomSub (dotall : Bool) (rule : String × String) (pom : List Char) : List Char :=
  sub dotall (parse rule.1.toList) (fun m => expandTemplate m rule.2.toList) pom

/-- The substitution loop of `convert_pom`. -/
def convertPomTextWith (dotall : Bool) (rules : List (String × String)) (pom : List Char) :
    List Char :=
  rules.foldl (fun p r => pomSub dotall r p) pom

section Skip

variable {dotall : Bool}

theorem convertPomTextWith_append (xs ys : List (String × String)) (pom : List Char) :
    convertPomTextWith dotall (xs ++ ys) pom =
      convertPomTextWith dotall ys (convertPomTextWith dotall xs pom) :=
  List.foldl_append _ _ _ _

/-- Rules none of which can fire on a descriptor leave it as it is. -/
theorem convertPomTextWith_eq_self {pom : List Char} : ∀ {rules : List (String × String)},
    (∀ r ∈ rules, Absent (parse r.1.toList) pom) → convertPomTextWith dotall rules pom = pom
  | [], _ => rfl
  | r :: rs, h => by
    have hr : pomSub dotall r pom = pom := sub_eq_self_of_absent (h r (List.mem_cons_self _ _))
    simp only [convertPomTextWith, List.foldl_cons, hr]
    exact convertPomTextWith_eq_self fun r' hr' => h r' (List.mem_cons_of_mem _ hr')

/-- Where only the rule at index `n` can fire, on the descriptor and then on its result,
the loop is that one rule. -/
theorem convertPomTextWith_of_absent (n : Nat) {rules : List (String × String)}
    {pom out : List Char} (hx : ∀ r ∈ rules.take n, Absent (parse r.1.toList) pom)
    (hy : convertPomTextWith dotall ((rules.drop n).take 1) pom = out)
    (hz : ∀ r ∈ (rules.drop n).drop 1, Absent (parse r.1.toList) out) :
    convertPomTextWith dotall rules pom = out := by
  rw [← List.take_append_drop n rules, ← List.take_append_drop 1 (rules.drop n),
    convertPomTextWith_append, convertPomTextWith_append, convertPomTextWith_eq_self hx, hy,
    convertPomTextWith_eq_self hz]

end Skip

/-! ## A rule that spans from one tag to another

The version rule is an opening tag, `.+` and a closing tag, each tag a fixed-width pattern.  Its
greedy `.+` runs as far as it can and gives back characters until the closing tag fits, so a
match runs to the last closing tag its class can reach (`matchAt_span`). -/

section Span

variable {dotall : Bool} {H K : List Atom} {k : CharClass}

/-- The text after a match of `H k+ K` that starts at a window of `H`: the greedy run `u ++ v`
ends at the last window of `K` the class `k` reaches. -/
theorem matchAt_span (hH : ∀ a ∈ H, a.fixed) (hK : Fixed K) {w u t : List Char}
    (hw : fits dotall H w) (hwl : w.length = H.length) (hu : u ≠ [])
    (huk : ∀ c ∈ u, k.test dotall c = true) (ht : fits dotall K t)
    (hlater : ∀ v x, t = v ++ x → v ≠ [] → (∀ c ∈ v, k.test dotall c = true) →
      fits dotall K x = false) :
    matchAt dotall (H ++ .plus k :: K) (w ++ u ++ t) = some (t.drop K.length) := by
  obtain ⟨c, u, rfl⟩ := List.exists_cons_of_ne_nil hu
  have hnext : matchAt dotall K t = some (t.drop K.length) := by
    rw [matchAt_of_fixed hK, if_pos ht]
  rw [matchAt_append_of_fixed _ _ hH, List.append_assoc,
    if_pos (by rw [fits_append_of_le _ (by omega)]; exact hw), ← hwl, List.drop_left,
    List.cons_append, matchAt.eq_5, if_pos (huk c (List.mem_cons_self _ _))]
  refine starMatch_eq_some hnext (fun v x e hv hvk => ?_) u
    fun d hd => huk d (List.mem_cons_of_mem _ hd)
  rw [matchAt_of_fixed hK, hlater v x e hv hvk]
  rfl

/-- A match of `H k+ K` holds a window of `K`. -/
theorem fits_of_matchAt_span (hH : ∀ a ∈ H, a.fixed) {y r : List Char}
    (h : matchAt dotall (H ++ .plus k :: K) y = some r) :
    ∃ x, x <:+ y ∧ (matchAt dotall K x).isSome := by
  rw [matchAt_append_of_fixed _ _ hH] at h
  split at h
  · cases hy : y.drop H.length with
    | nil => rw [hy] at h; cases h
    | cons c y' =>
      rw [hy, matchAt.eq_5] at h
      split at h
      · obtain ⟨x, hx, hm⟩ := starMatch_isSome_suffix y' (by rw [h]; rfl)
        exact ⟨x, hx.trans ((List.suffix_cons c y').trans (hy ▸ List.drop_suffix _ _)), hm⟩
      · cases h
  · cases h

/-- A pattern that begins with a fixed-width `H` matches at no position of `A` where no window
of `H` starts in `A ++ w` but the last character of `w`, for a word `w` as long as `H`. -/
theorem matchAt_eq_none_of_count (hH : ∀ a ∈ H, a.fixed) (q : List Atom) {A w : List Char}
    (hw : w ≠ []) (hwl : w.length = H.length) (hA : count dotall H (A ++ w.dropLast) = 0)
    (y : List Char) : ∀ z, z <:+ A → z ≠ [] → matchAt dotall (H ++ q) (z ++ (w ++ y)) = none := by
  intro z hz hz0
  have hlen : H.length ≤ (z ++ w.dropLast).length := by
    have := List.length_pos.mpr hz0
    simp only [List.length_append, List.length_dropLast]
    omega
  have hfit : fits dotall H (z ++ (w ++ y)) = false := by
    rw [← List.dropLast_append_getLast hw, List.append_assoc, ← List.append_assoc z,
      fits_append_of_le _ hlen]
    refine Bool.eq_false_iff.mpr fun hf => ?_
    obtain ⟨a, rfl⟩ := hz
    have h1 := one_le_count_of_fits
      (List.ne_nil_of_length_pos (hwl ▸ List.length_pos.mpr hw : 0 < H.length)) hf
    have h2 : count dotall H (z ++ w.dropLast) ≤ count dotall H (a ++ z ++ w.dropLast) :=
      count_le_of_infix H ⟨a, [], by simp⟩
    omega
  rw [matchAt_append_of_fixed _ _ hH, hfit]
  rfl

/-- Where no window of `K` lies, `H k+ K` matches nowhere and `re.sub` changes nothing. -/
theorem sub_span_eq_self (hH : ∀ a ∈ H, a.fixed) (hK : Fixed K) {repl : List Char → List Char}
    {s : List Char} (h : count dotall K s = 0) :
    sub dotall (H ++ .plus k :: K) repl s = s := by
  have hnone : ∀ y, y <:+ s → matchAt dotall (H ++ .plus k :: K) y = none := fun y hy => by
    cases hm : matchAt dotall (H ++ .plus k :: K) y with
    | none => rfl
    | some r =>
      obtain ⟨x, hx, hs⟩ := fits_of_matchAt_span hH hm
      have hfit : fits dotall K x = true := by
        rw [matchAt_of_fixed hK] at hs
        split at hs
        · assumption
        · cases hs
      have h1 := one_le_count_of_fits hK.ne_nil hfit
      have h2 : count dotall K x ≤ count dotall K s := count_le_of_infix K (hx.trans hy).isInfix
      omega
  rw [← List.append_nil s, sub_append_of_none fun z hz _ => by
      rw [List.append_nil]; exact hnone z hz,
    sub_nil_of_none (hnone [] List.nil_suffix)]

end Span

/-- `re.sub` copies a template without backslashes. -/
theorem expandTemplate_of_not_mem (g : List Char) : ∀ r : List Char, '\\' ∉ r →
    expandTemplate g r = r
  | [], _ => rfl
  | c :: r, h => by
    have hc : c ≠ '\\' := fun e => h (e ▸ List.mem_cons_self _ _)
    have ih := expandTemplate_of_not_mem g r fun h' => h (List.mem_cons_of_mem _ h')
    unfold expandTemplate
    split
    · next heq => cases heq
    · next heq => exact absurd (List.cons.inj heq).1 hc
    · next heq => exact absurd (List.cons.inj heq).1 hc
    · next heq =>
      obtain ⟨rfl, rfl⟩ := List.cons.inj heq
      rw [ih]

/-! ## Rules that keep to one line

A rule whose pattern admits no newline and whose template holds neither an escape nor a newline
rewrites each line of the descriptor on its own and keeps it one line, so a table of such rules
acts line by line (`convertPomTextWith_joinLines`). -/

/-- A rule that acts on each line alone. -/
def LineRule (dotall : Bool) (rule : String × String) : Prop :=
  OneLine dotall (parse rule.1.toList) ∧ '\\' ∉ rule.2.toList ∧ '\n' ∉ rule.2.toList

instance (dotall : Bool) (rule : String × String) : Decidable (LineRule dotall rule) :=
  inferInstanceAs (Decidable (_ ∧ _ ∧ _))

theorem convertPomTextWith_joinLines {dotall : Bool} : ∀ {rules : List (String × String)},
    (∀ r ∈ rules, LineRule dotall r) → ∀ (l : List Char) (ls : List (List Char)),
      (∀ x ∈ l :: ls, '\n' ∉ x) →
      convertPomTextWith dotall rules (joinLines (l :: ls)) =
        joinLines ((l :: ls).map (convertPomTextWith dotall rules))
  | [], _, l, ls, _ => by
    rw [show convertPomTextWith dotall [] = id from rfl, List.map_id]
    rfl
  | r :: rs, h, l, ls, hl => by
    obtain ⟨hp, hbs, hnl⟩ := h r (List.mem_cons_self _ _)
    have hsub : pomSub dotall r (joinLines (l :: ls)) =
        joinLines ((l :: ls).map (pomSub dotall r)) :=
      sub_joinLines hp _ l ls hl
    have hls : ∀ x ∈ (l :: ls).map (pomSub dotall r), '\n' ∉ x :=
      List.forall_mem_map.mpr fun x hx => newline_not_mem_sub
        (fun m => by rw [expandTemplate_of_not_mem _ _ hbs]; exact hnl) x (hl x hx)
    rw [List.map_cons] at hsub hls
    calc convertPomTextWith dotall (r :: rs) (joinLines (l :: ls))
        = convertPomTextWith dotall rs
            (joinLines (pomSub dotall r l :: ls.map (pomSub dotall r))) := by
          rw [← hsub]; rfl
      _ = joinLines ((pomSub dotall r l :: ls.map (pomSub dotall r)).map
            (convertPomTextWith dotall rs)) :=
          convertPomTextWith_joinLines (fun r' hr' => h r' (List.mem_cons_of_mem _ hr')) _ _ hls
      _ = joinLines ((l :: ls).map (convertPomTextWith dotall (r :: rs))) := by
          simp only [List.map_cons, List.map_map]
          rfl

end SdkMigration.Convert

namespace SdkMigration.ScriptsConvert

open Convert Regex

/-- The table `pom_substitutions` of `scripts/convert.py`. -/
def pomSubstitutions : List (String × String) := [
  ("<com.applause.sdk.java.version>.+</com.applause.sdk.java.version>",
    "<com.applause.sdk.java.version>6.0.0</com.applause.sdk.java.version>"),
  ("<source>17</source>", "<source>21</source>"),
  ("<target>17</target>", "<target>21</target>"),
  ("<dependency>\\s+<groupId>com.applause</groupId>\\s+<artifactId>auto.sdk.java</artifactId>\\s+<version>.*</version>\\s+<type>pom</type>\\s+<scope>import</scope>\\s+</dependency>",
    "<dependency>\n                <groupId>com.applause</groupId>\n                <artifactId>auto-sdk-java-page-object</artifactId>\n                <version>$\x7bcom.applause.sdk.java.version\x7d</version>\n            </dependency>\n            <dependency>\n                <groupId>com.applause</groupId>\n                <artifactId>auto-sdk-java-testng</artifactId>\n                <version>$\x7bcom.applause.sdk.java.version\x7d</version>\n            </dependency>"),
  ("\\s*<repository>\\s*<id>github</id>\\s*<name>GitHub OWNER Apache Maven Packages</name>\\s*<url>https://maven.pkg.github.com/ApplauseAuto/helper-sdk.auto</url>\\s*<releases>\\s*<enabled>true</enabled>\\s*<updatePolicy>always</updatePolicy>\\s*</releases>\\s*<snapshots>\\s*<enabled>true</enabled>\\s*</snapshots>\\s*</repository>\\s*",
    ""),
  ("\\s*<dependency>\\s*<artifactId>helper-sdk</artifactId>\\s*<groupId>com.applause</groupId>\\s*<version>\\$\x7bhelper.sdk.version\x7d</version>\\s*</dependency>\\s*",
    ""),
  ("(</dependencies>)",
    "<dependency>\n                    <groupId>com.applause</groupId>\n                    <artifactId>auto-sdk-java-helpers</artifactId>\n                    <version>$\x7bcom.applause.sdk.java.version\x7d</version>\n                </dependency>\\n\\1")]

/-- The text transformation of `convert_pom` in `scripts/convert.py`, whose calls pass
`re.DOTALL | re.MULTILINE`. -/
def convertPomText (pom : List Char) : List Char := convertPomTextWith true pomSubstitutions pom

set_option maxRecDepth 100000 in
/-- Under `re.DOTALL` the `<version>.*</version>` of the bill-of-materials rule runs to the
last `</version>`, so one match takes the next import dependency with it. -/
theorem convertPomText_two_boms :
    convertPomText ("<dependency>\n<groupId>com.applause</groupId>\n" ++
        "<artifactId>auto-sdk-java</artifactId>\n<version>5</version>\n<type>pom</type>\n" ++
        "<scope>import</scope>\n</dependency>\n<dependency>\n<groupId>org.junit</groupId>\n" ++
        "<artifactId>junit-bom</artifactId>\n<version>5</version>\n<type>pom</type>\n" ++
        "<scope>import</scope>\n</dependency>").toList =
      ("<dependency>\n                <groupId>com.applause</groupId>\n" ++
        "                <artifactId>auto-sdk-java-page-object</artifactId>\n" ++
        "                <version>$\x7bcom.applause.sdk.java.version\x7d</version>\n" ++
        "            </dependency>\n            <dependency>\n" ++
        "                <groupId>com.applause</groupId>\n" ++
        "                <artifactId>auto-sdk-java-testng</artifactId>\n" ++
        "                <version>$\x7bcom.applause.sdk.java.version\x7d</version>\n" ++
        "            </dependency>").toList :=
  convertPomTextWith_of_absent 3 (by decide) (by decide) (by decide)

set_option maxRecDepth 100000 in
/-- An import dependency other than the targeted one does not survive `convert_pom`. -/
theorem convertPomText_drops_junit_bom :
    ("<dependency>\n<groupId>org.junit</groupId>\n<artifactId>junit-bom</artifactId>\n" ++
        "<version>5</version>\n<type>pom</type>\n<scope>import</scope>\n</dependency>").toList <:+:
      ("<dependency>\n<groupId>com.applause</groupId>\n" ++
        "<artifactId>auto-sdk-java</artifactId>\n<version>5</version>\n<type>pom</type>\n" ++
        "<scope>import</scope>\n</dependency>\n<dependency>\n<groupId>org.junit</groupId>\n" ++
        "<artifactId>junit-bom</artifactId>\n<version>5</version>\n<type>pom</type>\n" ++
        "<scope>import</scope>\n</dependency>").toList ∧
    ¬("<dependency>\n<groupId>org.junit</groupId>\n<artifactId>junit-bom</artifactId>\n" ++
        "<version>5</version>\n<type>pom</type>\n<scope>import</scope>\n</dependency>").toList <:+:
      convertPomText ("<dependency>\n<groupId>com.applause</groupId>\n" ++
        "<artifactId>auto-sdk-java</artifactId>\n<version>5</version>\n<type>pom</type>\n" ++
        "<scope>import</scope>\n</dependency>\n<dependency>\n<groupId>org.junit</groupId>\n" ++
        "<artifactId>junit-bom</artifactId>\n<version>5</version>\n<type>pom</type>\n" ++
        "<scope>import</scope>\n</dependency>").toList := by
  rw [convertPomText_two_boms]
  exact ⟨by decide, by decide⟩

set_option maxRecDepth 100000 in
/-- The helpers dependency is inserted before every `</dependencies>`, also where the
descriptor already declares it. -/
theorem convertPomText_helpers_again :
    convertPomText ("<dependencies>\n<dependency>\n" ++
        "<artifactId>auto-sdk-java-helpers</artifactId>\n</dependency>\n</dependencies>").toList =
      ("<dependencies>\n<dependency>\n<artifactId>auto-sdk-java-helpers</artifactId>\n" ++
        "</dependency>\n<dependency>\n                    <groupId>com.applause</groupId>\n" ++
        "                    <artifactId>auto-sdk-java-helpers</artifactId>\n" ++
        "                    <version>$\x7bcom.applause.sdk.java.version\x7d</version>\n" ++
        "                </dependency>\n</dependencies>").toList :=
  convertPomTextWith_of_absent 6 (by decide) (by decide) (by decide)

set_option maxRecDepth 100000 in
/-- A descriptor that declares the helpers dependency once declares it twice after
`convert_pom`. -/
theorem convertPomText_helpers_count :
    count false ("<artifactId>auto-sdk-java-helpers</artifactId>".toList.map .lit)
        ("<dependencies>\n<dependency>\n" ++
          "<artifactId>auto-sdk-java-helpers</artifactId>\n</dependency>\n</dependencies>").toList = 1 ∧
      count false ("<artifactId>auto-sdk-java-helpers</artifactId>".toList.map .lit)
        (convertPomText ("<dependencies>\n<dependency>\n" ++
          "<artifactId>auto-sdk-java-helpers</artifactId>\n</dependency>\n</dependencies>").toList) =
        2 := by
  rw [convertPomText_helpers_again]
  decide

/-! ## The version rule under `re.DOTALL`

The `.+` of the version rule admits a newline under `re.DOTALL`, so a match runs from the first
opening tag of the version property to the last closing tag of the whole descriptor
(`convertPomTextWith_version`).  On a descriptor with one version property the rule sets it
to `6.0.0`; on one with more, whatever stands between the first and the last goes with them.
The `.` of the tag names admits any character, so the hypotheses count windows of the tags as
the rule reads them. -/

theorem parse_versionPattern :
    parse "<com.applause.sdk.java.version>.+</com.applause.sdk.java.version>".toList =
      parse "<com.applause.sdk.java.version>".toList ++
        .plus .any :: parse "</com.applause.sdk.java.version>".toList := by
  decide

/-- Under `re.DOTALL` the version rule replaces everything from the first opening tag of the
version property to the last closing tag by one element with the version `6.0.0`: `A` holds
no window of the opening tag that ends before the one shown, and after the closing tag shown
no window of the closing tag starts. -/
theorem convertPomTextWith_version {A M B : List Char}
    (hA : count true (parse "<com.applause.sdk.java.version>".toList)
      (A ++ "<com.applause.sdk.java.version".toList) = 0)
    (hM : M ≠ [])
    (hB : count true (parse "</com.applause.sdk.java.version>".toList)
      ("/com.applause.sdk.java.version>".toList ++ B) = 0) :
    convertPomTextWith true (pomSubstitutions.take 1)
        (A ++ "<com.applause.sdk.java.version>".toList ++ M ++
          "</com.applause.sdk.java.version>".toList ++ B) =
      A ++ "<com.applause.sdk.java.version>6.0.0</com.applause.sdk.java.version>".toList ++
        B := by
  have hH : ∀ a ∈ parse "<com.applause.sdk.java.version>".toList, a.fixed := by decide
  have hK : Fixed (parse "</com.applause.sdk.java.version>".toList) := by decide
  have hlater : ∀ v x, "</com.applause.sdk.java.version>".toList ++ B = v ++ x → v ≠ [] →
      (∀ c ∈ v, CharClass.any.test true c = true) →
      fits true (parse "</com.applause.sdk.java.version>".toList) x = false := by
    intro v x e hv _
    obtain ⟨c, v, rfl⟩ := List.exists_cons_of_ne_nil hv
    refine Bool.eq_false_iff.mpr fun hf => ?_
    have h1 := one_le_count_of_fits hK.ne_nil hf
    have h2 : count true (parse "</com.applause.sdk.java.version>".toList) x ≤
        count true (parse "</com.applause.sdk.java.version>".toList)
          ("/com.applause.sdk.java.version>".toList ++ B) :=
      count_le_of_infix _ ⟨v, [], by rw [List.append_nil]; exact (List.cons.inj e).2.symm⟩
    omega
  have hmatch : matchAt true (parse "<com.applause.sdk.java.version>".toList ++
        .plus .any :: parse "</com.applause.sdk.java.version>".toList)
      ("<com.applause.sdk.java.version>".toList ++ (M ++
        ("</com.applause.sdk.java.version>".toList ++ B))) = some B := by
    rw [← List.append_assoc, matchAt_span hH hK (by decide) (by decide) hM
      (fun c _ => show CharClass.any.test true c = true from rfl)
      (fits_append B (by decide : fits true (parse "</com.applause.sdk.java.version>".toList)
        "</com.applause.sdk.java.version>".toList)) hlater]
    exact congrArg some (List.drop_left' (by decide))
  have hBK : count true (parse "</com.applause.sdk.java.version>".toList) B = 0 := by
    have h : count true (parse "</com.applause.sdk.java.version>".toList) B ≤
        count true (parse "</com.applause.sdk.java.version>".toList)
          ("/com.applause.sdk.java.version>".toList ++ B) :=
      count_le_of_infix _ (List.suffix_append _ B).isInfix
    omega
  show pomSub true ("<com.applause.sdk.java.version>.+</com.applause.sdk.java.version>",
    "<com.applause.sdk.java.version>6.0.0</com.applause.sdk.java.version>") _ = _
  simp only [pomSub, List.append_assoc]
  rw [parse_versionPattern,
    sub_append_of_none (matchAt_eq_none_of_count hH _ (by decide) (by decide) hA _),
    sub_of_some hmatch (by simp; omega), expandTemplate_of_not_mem _ _ (by decide),
    sub_span_eq_self hH hK hBK]

/-- A descriptor with one version property. -/
theorem convertPomTextWith_version_one :
    count true (parse "<com.applause.sdk.java.version>".toList)
        ("<properties>\n  ".toList ++ "<com.applause.sdk.java.version".toList) = 0 ∧
      "5.2.0".toList ≠ [] ∧
      count true (parse "</com.applause.sdk.java.version>".toList)
        ("/com.applause.sdk.java.version>".toList ++ "\n</properties>".toList) = 0 ∧
      convertPomTextWith true (pomSubstitutions.take 1)
          ("<properties>\n  ".toList ++ "<com.applause.sdk.java.version>".toList ++
            "5.2.0".toList ++ "</com.applause.sdk.java.version>".toList ++
            "\n</properties>".toList) =
        "<properties>\n  ".toList ++
          "<com.applause.sdk.java.version>6.0.0</com.applause.sdk.java.version>".toList ++
          "\n</properties>".toList :=
  ⟨by decide, by decide, by decide, convertPomTextWith_version (by decide) (by decide) (by decide)⟩

end SdkMigration.ScriptsConvert

namespace SdkMigration.TopConvert

open Convert

/-- The table `pom_substitutions` of `convert.py`. -/
def pomSubstitutions : List (String × String) := [
  ("<com.applause.sdk.java.version>.+</com.applause.sdk.java.version>",
    "<com.applause.sdk.java.version>6.0.0</com.applause.sdk.java.version>"),
  ("<source>17</source>", "<source>21</source>"),
  ("<target>17</target>", "<target>21</target>"),
  ("<dependency>\\s+<groupId>com.applause</groupId>\\s+<artifactId>auto.sdk.java</artifactId>\\s+<version>.*</version>\\s+<type>pom</type>\\s+<scope>import</scope>\\s+</dependency>",
    "<dependency>\n                <groupId>com.applause</groupId>\n                <artifactId>auto-sdk-java-page-object</artifactId>\n                <version>$\x7bcom.applause.sdk.java.version\x7d</version>\n            </dependency>\n            <dependency>\n                <groupId>com.applause</groupId>\n                <artifactId>auto-sdk-java-testng</artifactId>\n                <version>$\x7bcom.applause.sdk.java.version\x7d</version>\n            </dependency>")]

/-- The text transformation of `convert_pom` in `convert.py`, whose calls pass no flag. -/
def convertPomText (pom : List Char) : List Char := convertPomTextWith false pomSubstitutions pom

/-- Without `re.DOTALL` the version rule and the two compiler-level rules of `convert.py` act on
each line of the descriptor alone: no match reaches past the end of its line. -/
theorem convertPomTextWith_lines (pom : List Char) :
    convertPomTextWith false (pomSubstitutions.take 3) pom =
      joinLines ((splitLines pom).map (convertPomTextWith false (pomSubstitutions.take 3))) := by
  obtain ⟨l, ls, hls⟩ := List.exists_cons_of_ne_nil (splitLines_ne_nil pom)
  conv_lhs => rw [← joinLines_splitLines pom, hls]
  rw [hls]
  exact convertPomTextWith_joinLines (by decide) l ls
    fun x hx => newline_not_mem_of_mem_splitLines (hls ▸ hx)

end SdkMigration.TopConvert
