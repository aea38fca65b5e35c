import SdkMigration.Java.Imports

/-!
# `remove_sdk_helper_create`: the factory-call loop

The loop searches for `SdkHelper.create\(.+.class\);`, and while a match exists it splices
a builder chain in its place (keeping the class name cut out of the match), calls
`add_import_if_not_present` for the builder's import, and searches again, this time for
the pattern without the final `;`.  Each search reads the text the previous iteration
rewrote, and the spec itself wonders whether the loop always stops.

It does.  Both patterns open with the fixed-width `SdkHelper.create\(` (`createCallHead`),
every match starts with a window of it, and an iteration removes that window and creates
none: the builder call holds no `create(`, its class name holds no `(`, and
`add_import_if_not_present` only trims, drops and inserts whole lines.  So `createCalls`
falls by at least one per iteration (`createCalls_rewriteCall_lt`), and `sdkLoop` with that
many iterations of fuel always reaches the end of the loop (`sdkLoop_isSome`).  That is what
makes `removeSdkHelperCreate` a total function.

The same count shows what else an iteration leaves alone.  For any one-line fixed-width
pattern whose windows cannot reach into the fixed parts of the builder call
(`SpliceSafe`), the splice keeps only the windows of the class name, which was cut from the
match, so the loop creates no window of it (`count_removeSdkHelperCreate_le`).  And the
loop ends where the search without `;` fails, so a second run finds nothing
(`removeSdkHelperCreate_idem`).

Where the text holds exactly one call and nothing after it that the greedy `.+` could run on
to, the loop does what the script means it to do: it rewrites that call, class name intact,
and stops (`removeSdkHelperCreate_single_call`).  Two calls on one line show the other side
of the greedy `.+` (`removeSdkHelperCreate_two_calls`).
-/

namespace SdkMigration.Convert

open Regex

/-- The pattern of the first `re.search`. -/
def sdkHelperCreatePattern : List Atom := parse "SdkHelper.create\\(.+.class\\);".toList

/-- The pattern of the `re.search` at the end of each iteration, which lacks the `;`. -/
def sdkHelperCreateResearchPattern : List Atom := parse "SdkHelper.create\\(.+.class\\)".toList

/-- The import statement `remove_sdk_helper_create` adds. -/
def builderImport : String :=
  "import com.applause.auto.pageobjectmodel.builder.PageObjectBuilder;"

/-- `result.group().split('(')[1].split('.class')[0]`.  The group always holds the `(` of
`create(`, so the split has an element at index 1. -/
def className (m : Found) : List Char :=
  beforeFirst ".class".toList ((m.group.splitOn '(').getD 1 [])

/-- The text of the builder call before the class name. -/
def builderCallOpen : List Char :=
  "PageObjectBuilder.withContext(SdkHelper.getDriverContext()).forBaseComponent(".toList

/-- The text of the builder call after the class name. -/
def builderCallClose : List Char := ".class).initialize();".toList

/-- The builder chain spliced in for a call with class name `className`. -/
def builderCall (className : List Char) : List Char :=
  builderCallOpen ++ className ++ builderCallClose

/-- The body of the `while` loop: `contents[:result.start()] + ... + contents[result.end():]`,
then `add_import_if_not_present` for the builder's import. -/
def rewriteCall (m : Found) : List Char :=
  addImportIfNotPresent builderImport.toList (m.before ++ builderCall (className m) ++ m.after)

/-- The `while result is not None` loop, for at most `fuel` iterations; `none` when one
iteration more was due. -/
def sdkLoop : Nat → Option Found → List Char → Option (List Char)
  | _, none, contents => some contents
  | 0, some _, _ => none
  | n + 1, some m, _ =>
    sdkLoop n (search false sdkHelperCreateResearchPattern (rewriteCall m)) (rewriteCall m)

@[simp] theorem sdkLoop_none (n : Nat) (contents : List Char) :
    sdkLoop n none contents = some contents := by
  cases n <;> rfl

/-- The fixed-width head both patterns share: `SdkHelper`, one character other than a
newline, and `create(`. -/
def createCallHead : List Atom := parse "SdkHelper.create\\(".toList

/-- The positions of a text where `createCallHead` matches. -/
def createCalls (contents : List Char) : Nat := count false createCallHead contents

/-! ## What a splice creates -/

/-- A pattern whose windows lie on one line and never reach into the fixed parts of the
builder call or into its import statement. -/
structure SpliceSafe (q : List Atom) : Prop where
  ne_nil : q ≠ []
  noNewline : NoNewline false q
  callOpen : Clean false q builderCallOpen
  callClose : Clean false q builderCallClose
  importCount : count false q builderImport.toList = 0

instance (q : List Atom) : Decidable (SpliceSafe q) :=
  decidable_of_iff (q ≠ [] ∧ NoNewline false q ∧ Clean false q builderCallOpen ∧
      Clean false q builderCallClose ∧ count false q builderImport.toList = 0)
    ⟨fun h => ⟨h.1, h.2.1, h.2.2.1, h.2.2.2.1, h.2.2.2.2⟩,
      fun h => ⟨h.1, h.2, h.3, h.4, h.5⟩⟩

variable {q : List Atom}

/-- The windows of a splice are those of its three parts: the builder call adds only the
windows of its class name. -/
theorem count_builderCall_splice (hq : SpliceSafe q) (x cn y : List Char) :
    count false q (x ++ builderCall cn ++ y) =
      count false q x + count false q cn + count false q y := by
  rw [builderCall, show x ++ (builderCallOpen ++ cn ++ builderCallClose) ++ y =
      x ++ builderCallOpen ++ (cn ++ builderCallClose ++ y) by simp,
    count_clean_append hq.callOpen, count_clean_append hq.callClose, Nat.add_assoc]

/-- The class name is a prefix of one piece of the match split at `(`, or empty. -/
theorem className_prefix (m : Found) :
    ∃ l, (l ∈ m.group.splitOn '(' ∨ l = []) ∧ className m <+: l := by
  refine ⟨(m.group.splitOn '(').getD 1 [], ?_, beforeFirst_prefix _ _⟩
  rw [List.getD_eq_getElem?_getD]
  cases hget : (m.group.splitOn '(')[1]? with
  | none => exact .inr rfl
  | some l => exact .inl (List.getElem?_mem hget)

/-- The class name is cut from between two `(` of the match, so it holds none. -/
theorem paren_not_mem_className (m : Found) : '(' ∉ className m := by
  obtain ⟨l, hl | rfl, hp⟩ := className_prefix m
  · exact fun h => not_mem_of_mem_splitOn hl (hp.subset h)
  · exact fun h => by simpa using hp.subset h

/-- The class name occurs in the match. -/
theorem className_infix_group (m : Found) : className m <:+: m.group := by
  obtain ⟨l, hl | rfl, hp⟩ := className_prefix m
  · exact hp.isInfix.trans (infix_of_mem_splitOn hl)
  · rw [List.prefix_nil.mp hp]; exact List.nil_infix

/-- The splice trades the windows of the match for those of its class name. -/
theorem count_splice_add_le (hq : SpliceSafe q) (m : Found) :
    count false q (m.before ++ builderCall (className m) ++ m.after) + count false q m.group ≤
      count false q (m.before ++ m.group ++ m.after) + count false q (className m) := by
  have : count false q m.before + count false q m.group + count false q m.after ≤
      count false q (m.before ++ m.group ++ m.after) := count_add_le_append q _ _ _
  rw [count_builderCall_splice hq]
  omega

/-- One iteration creates no window of a splice-safe pattern. -/
theorem count_rewriteCall_le (hq : SpliceSafe q) (m : Found) :
    count false q (rewriteCall m) ≤ count false q (m.before ++ m.group ++ m.after) := by
  have h1 := count_addImportIfNotPresent_le hq.noNewline hq.ne_nil builderImport.toList
    (m.before ++ builderCall (className m) ++ m.after) hq.importCount
  have h2 := count_splice_add_le hq m
  have h3 : count false q (className m) ≤ count false q m.group :=
    count_le_of_infix q (className_infix_group m)
  rw [rewriteCall]
  omega

/-! ## Facts about the concrete patterns and texts -/

theorem sdkHelperCreatePattern_eq :
    sdkHelperCreatePattern = createCallHead ++ parse ".+.class\\);".toList := by decide

theorem sdkHelperCreateResearchPattern_eq :
    sdkHelperCreateResearchPattern = createCallHead ++ parse ".+.class\\)".toList := by decide

theorem sdkHelperCreatePattern_eq_research :
    sdkHelperCreatePattern = sdkHelperCreateResearchPattern ++ [.lit ';'] := by decide

theorem createCallHead_fixed : ∀ a ∈ createCallHead, a.fixed := by decide

theorem paren_mem_createCallHead : Atom.lit '(' ∈ createCallHead := by decide

theorem createCallHead_spliceSafe : SpliceSafe createCallHead := by decide

/-! ## An iteration removes a window -/

/-- The splice removes the window its match starts with and creates none. -/
theorem createCalls_splice_lt {m : Found} (hg : fits false createCallHead m.group = true) :
    createCalls (m.before ++ builderCall (className m) ++ m.after) + 1 ≤
      createCalls (m.before ++ m.group ++ m.after) := by
  have hgroup := one_le_count_of_fits createCallHead_spliceSafe.ne_nil hg
  have hcn : count false createCallHead (className m) = 0 :=
    count_eq_zero_of_lit paren_mem_createCallHead (paren_not_mem_className m)
  have := count_splice_add_le createCallHead_spliceSafe m
  unfold createCalls
  omega

/-! ## The loop -/

/-- What a search result of the loop satisfies: it splits the text, and its match starts
with a window of the head. -/
def SearchSplits (o : Option Found) (contents : List Char) : Prop :=
  ∀ m, o = some m → contents = m.before ++ m.group ++ m.after ∧
    fits false createCallHead m.group = true

/-- Every search for a pattern that opens with the head splits the text at such a match. -/
theorem searchSplits_of_head (q : List Atom) (contents : List Char) :
    SearchSplits (search false (createCallHead ++ q) contents) contents := by
  intro m hm
  obtain ⟨hs, hmatch⟩ := search_eq_some hm
  rw [matchAt_append_of_fixed q _ createCallHead_fixed] at hmatch
  split at hmatch
  · next hfit =>
    have hlen := (matchAt_suffix false q _ _ hmatch).length_le
    simp only [List.length_drop, List.length_append] at hlen
    refine ⟨hs, ?_⟩
    rwa [fits_append_of_le m.after (by have := length_le_of_fits hfit; simp at this; omega)]
      at hfit
  · cases hmatch

theorem searchSplits_first (contents : List Char) :
    SearchSplits (search false sdkHelperCreatePattern contents) contents := by
  rw [sdkHelperCreatePattern_eq]; exact searchSplits_of_head _ contents

theorem searchSplits_research (contents : List Char) :
    SearchSplits (search false sdkHelperCreateResearchPattern contents) contents := by
  rw [sdkHelperCreateResearchPattern_eq]; exact searchSplits_of_head _ contents

/-- One iteration removes at least one window of the head. -/
theorem createCalls_rewriteCall_lt {m : Found} {contents : List Char}
    (h : SearchSplits (some m) contents) : createCalls (rewriteCall m) < createCalls contents := by
  obtain ⟨hs, hg⟩ := h m rfl
  have := count_addImportIfNotPresent_le createCallHead_spliceSafe.noNewline
    createCallHead_spliceSafe.ne_nil builderImport.toList
    (m.before ++ builderCall (className m) ++ m.after) createCallHead_spliceSafe.importCount
  have := createCalls_splice_lt hg
  rw [hs]; unfold rewriteCall createCalls at *; omega

/-- With as many iterations of fuel as the text has windows of the head, the loop ends. -/
theorem sdkLoop_isSome : ∀ (n : Nat) (o : Option Found) (contents : List Char),
    SearchSplits o contents → createCalls contents ≤ n → (sdkLoop n o contents).isSome
  | n, none, _, _, _ => by simp
  | 0, some _, _, h, hn => absurd (createCalls_rewriteCall_lt h) (by omega)
  | n + 1, some m, _, h, hn =>
    sdkLoop_isSome n _ _ (searchSplits_research _)
      (by have := createCalls_rewriteCall_lt h; omega)

/-- More fuel than the loop needs changes nothing. -/
theorem sdkLoop_add : ∀ {n : Nat} {o : Option Found} {contents r : List Char},
    sdkLoop n o contents = some r → ∀ k, sdkLoop (n + k) o contents = some r
  | _, none, _, _, h, k => by simpa using h
  | 0, some _, _, _, h, _ => by simp [sdkLoop] at h
  | n + 1, some _, _, _, h, k => by
    rw [sdkLoop] at h
    rw [Nat.add_right_comm, sdkLoop]
    exact sdkLoop_add h k

/-- `remove_sdk_helper_create(contents)`: the loop, run to its end. -/
def removeSdkHelperCreate (contents : List Char) : List Char :=
  (sdkLoop (createCalls contents) (search false sdkHelperCreatePattern contents) contents).get
    (sdkLoop_isSome _ _ _ (searchSplits_first contents) le_rfl)

set_option maxRecDepth 100000 in
/-- Two calls on one line: the greedy `.+` of the first search spans both, and the class
name is cut at the first `.class`, so the second call is lost. -/
theorem removeSdkHelperCreate_two_calls :
    removeSdkHelperCreate "SdkHelper.create(A.class); SdkHelper.create(B.class);".toList =
      ("PageObjectBuilder.withContext(SdkHelper.getDriverContext()).forBaseComponent(A.class)" ++
        ".initialize();\n" ++ builderImport).toList := by
  decide

/-- The loop of `remove_sdk_helper_create` ends within as many iterations as its input has
positions where `SdkHelper`, one character other than a newline, and `create(` occur, and
more fuel changes nothing; an iteration's splice removes at least one such window and
creates none, and `add_import_if_not_present` creates none either. -/
theorem removeSdkHelperCreate_terminates (t : List Char) :
    (∀ n, createCalls t ≤ n →
      sdkLoop n (search false sdkHelperCreatePattern t) t = some (removeSdkHelperCreate t)) ∧
    (∀ (contents : List Char) (m : Found),
      search false sdkHelperCreatePattern contents = some m ∨
          search false sdkHelperCreateResearchPattern contents = some m →
        createCalls (m.before ++ builderCall (className m) ++ m.after) + 1 ≤
          createCalls contents) ∧
    ∀ contents : List Char,
      createCalls (addImportIfNotPresent builderImport.toList contents) ≤ createCalls contents := by
  refine ⟨fun n hn => ?_, fun contents m hm => ?_, fun contents => ?_⟩
  · obtain ⟨k, rfl⟩ := Nat.exists_eq_add_of_le hn
    exact sdkLoop_add (Option.some_get _).symm k
  · obtain ⟨hs, hg⟩ := hm.elim (searchSplits_first contents m) (searchSplits_research contents m)
    rw [hs]
    exact createCalls_splice_lt hg
  · exact count_addImportIfNotPresent_le createCallHead_spliceSafe.noNewline
      createCallHead_spliceSafe.ne_nil _ contents createCallHead_spliceSafe.importCount

/-! ## What the loop leaves -/

/-- The loop, run to its end, gives `removeSdkHelperCreate`. -/
theorem sdkLoop_removeSdkHelperCreate (contents : List Char) :
    sdkLoop (createCalls contents) (search false sdkHelperCreatePattern contents) contents =
      some (removeSdkHelperCreate contents) :=
  (Option.some_get _).symm

/-- The loop creates no window of a splice-safe pattern. -/
theorem count_sdkLoop_le (hq : SpliceSafe q) :
    ∀ {n : Nat} {o : Option Found} {contents r : List Char}, SearchSplits o contents →
      sdkLoop n o contents = some r → count false q r ≤ count false q contents
  | _, none, _, _, _, h => by simp only [sdkLoop_none, Option.some.injEq] at h; rw [h]
  | 0, some _, _, _, _, h => by simp [sdkLoop] at h
  | n + 1, some m, _, _, hs, h => by
    rw [sdkLoop] at h
    have := count_sdkLoop_le hq (searchSplits_research _) h
    have := count_rewriteCall_le hq m
    rw [(hs m rfl).1]
    omega

theorem count_removeSdkHelperCreate_le (hq : SpliceSafe q) (contents : List Char) :
    count false q (removeSdkHelperCreate contents) ≤ count false q contents :=
  count_sdkLoop_le hq (searchSplits_first contents) (sdkLoop_removeSdkHelperCreate contents)

/-- The loop stops before its first iteration, or where the search without `;` fails. -/
theorem sdkLoop_exit : ∀ {n : Nat} {o : Option Found} {contents r : List Char},
    sdkLoop n o contents = some r →
      (o = none ∧ r = contents) ∨ search false sdkHelperCreateResearchPattern r = none
  | _, none, _, _, h => .inl ⟨rfl, by simpa using h.symm⟩
  | 0, some _, _, _, h => by simp [sdkLoop] at h
  | n + 1, some _, _, _, h => by
    rw [sdkLoop] at h
    rcases sdkLoop_exit h with ⟨ho, rfl⟩ | hr
    · exact .inr ho
    · exact .inr hr

/-- Where the first search fails, the loop does not run. -/
theorem removeSdkHelperCreate_eq_self {contents : List Char}
    (h : search false sdkHelperCreatePattern contents = none) :
    removeSdkHelperCreate contents = contents := by
  have := sdkLoop_removeSdkHelperCreate contents
  rw [h, sdkLoop_none] at this
  exact (Option.some.inj this).symm

theorem searchSplits_some {contents : List Char} {m : Found}
    (hs : search false sdkHelperCreatePattern contents = some m) :
    SearchSplits (some m) contents :=
  hs ▸ searchSplits_first contents

/-- Where the first search finds a call, the loop rewrites it and goes on from the text its
iteration leaves. -/
theorem sdkLoop_first {contents : List Char} {m : Found}
    (hs : search false sdkHelperCreatePattern contents = some m) :
    ∃ n, sdkLoop n (search false sdkHelperCreateResearchPattern (rewriteCall m)) (rewriteCall m) =
      some (removeSdkHelperCreate contents) := by
  have hlt := createCalls_rewriteCall_lt (searchSplits_some hs)
  obtain ⟨n, hn⟩ := Nat.exists_eq_succ_of_ne_zero (Nat.not_eq_zero_of_lt hlt)
  have hloop := sdkLoop_removeSdkHelperCreate contents
  rw [hs, hn, sdkLoop] at hloop
  exact ⟨n, hloop⟩

/-- The loop's output holds no call the first search finds: the loop ended where the search
without `;` failed, so the search with it fails too, or it never ran. -/
theorem search_removeSdkHelperCreate (contents : List Char) :
    search false sdkHelperCreatePattern (removeSdkHelperCreate contents) = none := by
  rcases sdkLoop_exit (sdkLoop_removeSdkHelperCreate contents) with ⟨ho, hr⟩ | hr
  · rw [hr]; exact ho
  · rw [sdkHelperCreatePattern_eq_research]; exact search_append_eq_none _ hr

/-- A second run of `remove_sdk_helper_create` changes nothing. -/
theorem removeSdkHelperCreate_idem (contents : List Char) :
    removeSdkHelperCreate (removeSdkHelperCreate contents) = removeSdkHelperCreate contents :=
  removeSdkHelperCreate_eq_self (search_removeSdkHelperCreate contents)

/-- `remove_sdk_helper_create` changes a text exactly when its first search finds a call:
each iteration removes a window of the head, so a run that iterates cannot end where it
began. -/
theorem removeSdkHelperCreate_eq_self_iff (contents : List Char) :
    removeSdkHelperCreate contents = contents ↔
      search false sdkHelperCreatePattern contents = none := by
  refine ⟨fun heq => ?_, removeSdkHelperCreate_eq_self⟩
  cases hs : search false sdkHelperCreatePattern contents with
  | none => rfl
  | some m =>
    obtain ⟨n, hloop⟩ := sdkLoop_first hs
    have hle := count_sdkLoop_le createCallHead_spliceSafe (searchSplits_research _) hloop
    have hlt := createCalls_rewriteCall_lt (searchSplits_some hs)
    rw [heq] at hle
    unfold createCalls at hlt
    omega

/-! ## One call

A text with one call `SdkHelper.create(X.class);`, where the greedy `.+` cannot run on to a
later `class);`, is rewritten at that call and only there: the builder chain keeps `X`,
package qualification included, and the research finds nothing left. -/

/-- The first pattern past the head: `.+`, then the fixed `.class);`. -/
theorem sdkHelperCreatePattern_eq_plus :
    sdkHelperCreatePattern = createCallHead ++ .plus .any :: parse ".class\\);".toList := by
  decide

theorem classEnd_eq : parse ".class\\);".toList = .cls .any :: "class);".toList.map .lit := by
  decide

theorem classEnd_fixed : Fixed (parse ".class\\);".toList) := by decide

theorem classEnd_head : ∀ k, 2 ≤ k → k < 8 → (".class);".toList.drop k).head? ≠ some 'c' := by
  decide

/-- No `class);` starts two or more characters into `.class);` and a text without one. -/
theorem not_prefix_drop_classEnd {after : List Char} (h : ¬"class);".toList <:+: after)
    {k : Nat} (hk : 2 ≤ k) : ¬"class);".toList <+: (".class);".toList ++ after).drop k := by
  rintro ⟨u, hu⟩
  rcases Nat.lt_or_ge k 8 with hlt | hge
  · rw [List.drop_append_of_le_length (by simp; omega)] at hu
    have hne : ".class);".toList.drop k ≠ [] := by simp; omega
    have hhead := congrArg List.head? hu
    rw [List.head?_append_of_ne_nil _ (by decide), List.head?_append_of_ne_nil _ hne] at hhead
    exact classEnd_head k hk hlt hhead.symm
  · rw [List.drop_append_eq_append_drop, List.drop_eq_nil_of_le (by simp; omega),
      List.nil_append] at hu
    exact h ((List.infix_append [] _ u).trans (hu ▸ (List.drop_suffix _ _).isInfix))

/-- The rest of the first pattern after `.+` matches at the `.class);` that ends a call. -/
theorem matchAt_classEnd (after : List Char) :
    matchAt false (parse ".class\\);".toList) (".class);".toList ++ after) = some after := by
  rw [matchAt_of_fixed classEnd_fixed, fits_append_of_le _ (by decide), if_pos (by decide),
    List.drop_left' (by decide)]

/-- ... and nowhere later, where no `class);` follows. -/
theorem matchAt_classEnd_later {after : List Char} (h : ¬"class);".toList <:+: after)
    (v w : List Char) (e : ".class);".toList ++ after = v ++ w) (hv : v ≠ []) :
    matchAt false (parse ".class\\);".toList) w = none := by
  rw [matchAt_of_fixed classEnd_fixed, if_neg]
  intro hf
  cases w with
  | nil => rw [fits_nil_of_fixed classEnd_fixed] at hf; cases hf
  | cons d w' =>
    rw [classEnd_eq, fits, fits_lits, Bool.and_eq_true, List.isPrefixOf_iff_prefix] at hf
    have hw : w' = (".class);".toList ++ after).drop (v.length + 1) := by
      rw [e, List.drop_append_eq_append_drop]; simp
    exact not_prefix_drop_classEnd h (by have := List.length_pos.mpr hv; omega) (hw ▸ hf.2)

/-- The first pattern matches a call, up to its `.class);`. -/
theorem matchAt_call {cls after : List Char} (hne : cls ≠ []) (hnl : '\n' ∉ cls)
    (hend : ¬"class);".toList <:+: after) :
    matchAt false sdkHelperCreatePattern
      ("SdkHelper.create(".toList ++ cls ++ ".class);".toList ++ after) = some after := by
  obtain ⟨c, cls', rfl⟩ := List.exists_cons_of_ne_nil hne
  have hany : ∀ d ∈ c :: cls', CharClass.test false .any d = true := fun d hd => by
    simp only [CharClass.test, Bool.false_or, bne_iff_ne, ne_eq]
    rintro rfl
    exact hnl hd
  rw [sdkHelperCreatePattern_eq_plus, matchAt_append_of_fixed _ _ createCallHead_fixed,
    List.append_assoc, List.append_assoc, fits_append_of_le _ (by decide), if_pos (by decide),
    List.drop_left' (by decide), List.cons_append, matchAt.eq_5,
    if_pos (hany c (List.mem_cons_self _ _))]
  exact starMatch_eq_some (matchAt_classEnd after)
    (fun v w e hv _ => matchAt_classEnd_later hend v w e hv) cls'
    fun d hd => hany d (List.mem_cons_of_mem _ hd)

/-- A search that matches at the start of a nonempty text finds the match there. -/
theorem search_of_matchAt {p : List Atom} {x y : List Char} (hx : x ≠ [])
    (h : matchAt false p (x ++ y) = some y) : search false p (x ++ y) = some ⟨[], x, y⟩ := by
  obtain ⟨c, x', rfl⟩ := List.exists_cons_of_ne_nil hx
  rw [List.cons_append, search, ← List.cons_append, h]
  simp only [List.length_append, List.length_cons, Option.some.injEq]
  rw [show x'.length + 1 + y.length - y.length = x'.length + 1 by omega]
  simp

/-- With no window of the head before it, the first search finds the call. -/
theorem search_call {before cls after : List Char} (hb : createCalls before = 0)
    (hne : cls ≠ []) (hnl : '\n' ∉ cls) (hend : ¬"class);".toList <:+: after) :
    search false sdkHelperCreatePattern
        (before ++ ("SdkHelper.create(".toList ++ cls ++ ".class);".toList) ++ after) =
      some ⟨before, "SdkHelper.create(".toList ++ cls ++ ".class);".toList, after⟩ := by
  have hcount : createCalls (before ++ ("SdkHelper.create(".toList ++ cls ++ ".class);".toList ++
      after)) = createCalls ("SdkHelper.create(".toList ++ cls ++ ".class);".toList ++ after) := by
    unfold createCalls at hb ⊢
    rw [count_append, hb, List.append_assoc, List.append_assoc,
      straddle_eq_zero_of_leftSafe (by decide : LeftSafe false createCallHead _)]
    simp
  rw [List.append_assoc, search_append_of_none fun z hz hne' => ?_,
    search_of_matchAt (by simp) (matchAt_call hne hnl hend)]
  · simp
  · rw [sdkHelperCreatePattern_eq, matchAt_append_of_fixed _ _ createCallHead_fixed,
      fits_eq_false_of_count hcount hz hne', if_neg Bool.false_ne_true]

/-- The class name of a call is the text between its `(` and its first `.class`. -/
theorem className_call (before after : List Char) {cls : List Char} (hparen : '(' ∉ cls)
    (hcls : ¬".class".toList <:+: cls ++ ".clas".toList) :
    className ⟨before, "SdkHelper.create(".toList ++ cls ++ ".class);".toList, after⟩ = cls := by
  have hsplit : ("SdkHelper.create(".toList ++ cls ++ ".class);".toList).splitOn '(' =
      ["SdkHelper.create".toList, cls ++ ".class);".toList] := by
    rw [show "SdkHelper.create(".toList = "SdkHelper.create".toList ++ ['('] from rfl,
      List.append_assoc, List.append_assoc, List.singleton_append, List.splitOn,
      List.splitOnP_first _ _ (by decide) '(' rfl, List.splitOnP_eq_single]
    intro x hx hxp
    rw [beq_iff_eq] at hxp
    subst hxp
    rcases List.mem_append.mp hx with h | h
    exacts [hparen h, absurd h (by decide)]
  rw [className, hsplit, show ".class);".toList = ".class".toList ++ ");".toList from rfl,
    ← List.append_assoc]
  exact beforeFirst_append _ hcls

/-- No window of the head, no match of a pattern that opens with it. -/
theorem search_eq_none_of_createCalls (q : List Atom) {contents : List Char}
    (h : createCalls contents = 0) : search false (createCallHead ++ q) contents = none := by
  cases hs : search false (createCallHead ++ q) contents with
  | none => rfl
  | some m =>
    obtain ⟨hsplit, hg⟩ := searchSplits_of_head q contents m hs
    have h1 := one_le_count_of_fits createCallHead_spliceSafe.ne_nil hg
    have h2 : count false createCallHead m.group ≤ count false createCallHead contents :=
      count_le_of_infix createCallHead ⟨m.before, m.after, hsplit.symm⟩
    unfold createCalls at h
    omega

/-- A text with one call `SdkHelper.create(X.class);`, no other window of the head, and no
`class);` after the call: `remove_sdk_helper_create` puts the builder chain for `X` in the
call's place and adds the builder's import, and does nothing else. -/
theorem removeSdkHelperCreate_single_call {before cls after : List Char}
    (hb : createCalls before = 0) (ha : createCalls after = 0)
    (hend : ¬"class);".toList <:+: after) (hne : cls ≠ []) (hnl : '\n' ∉ cls)
    (hparen : '(' ∉ cls) (hcls : ¬".class".toList <:+: cls ++ ".clas".toList) :
    removeSdkHelperCreate
        (before ++ ("SdkHelper.create(".toList ++ cls ++ ".class);".toList) ++ after) =
      addImportIfNotPresent builderImport.toList (before ++ builderCall cls ++ after) := by
  have hrw : rewriteCall ⟨before, "SdkHelper.create(".toList ++ cls ++ ".class);".toList, after⟩ =
      addImportIfNotPresent builderImport.toList (before ++ builderCall cls ++ after) := by
    rw [rewriteCall, className_call before after hparen hcls]
  have hzero : createCalls (addImportIfNotPresent builderImport.toList
      (before ++ builderCall cls ++ after)) = 0 := by
    have h1 := count_addImportIfNotPresent_le createCallHead_spliceSafe.noNewline
      createCallHead_spliceSafe.ne_nil builderImport.toList (before ++ builderCall cls ++ after)
      createCallHead_spliceSafe.importCount
    have h2 := count_builderCall_splice createCallHead_spliceSafe before cls after
    have h3 : count false createCallHead cls = 0 := count_eq_zero_of_lit paren_mem_createCallHead hparen
    unfold createCalls at *
    omega
  obtain ⟨n, hloop⟩ := sdkLoop_first (search_call hb hne hnl hend)
  rw [hrw, sdkHelperCreateResearchPattern_eq, search_eq_none_of_createCalls _ hzero,
    sdkLoop_none] at hloop
  exact (Option.some.inj hloop).symm

/-- A page-object field assigned by one call with a qualified class name. -/
theorem removeSdkHelperCreate_single_call_home :
    createCalls "Page p = ".toList = 0 ∧ createCalls "\np.open();".toList = 0 ∧
      ¬"class);".toList <:+: "\np.open();".toList ∧ "pages.Home".toList ≠ [] ∧
      '\n' ∉ "pages.Home".toList ∧ '(' ∉ "pages.Home".toList ∧
      ¬".class".toList <:+: "pages.Home".toList ++ ".clas".toList ∧
      removeSdkHelperCreate ("Page p = ".toList ++
          ("SdkHelper.create(".toList ++ "pages.Home".toList ++ ".class);".toList) ++
          "\np.open();".toList) =
        addImportIfNotPresent builderImport.toList
          ("Page p = ".toList ++ builderCall "pages.Home".toList ++ "\np.open();".toList) := by
  have hb : createCalls "Page p = ".toList = 0 := by decide
  have ha : createCalls "\np.open();".toList = 0 := by decide
  have hend : ¬"class);".toList <:+: "\np.open();".toList := by decide
  have hne : "pages.Home".toList ≠ [] := by decide
  have hnl : '\n' ∉ "pages.Home".toList := by decide
  have hparen : '(' ∉ "pages.Home".toList := by decide
  have hcls : ¬".class".toList <:+: "pages.Home".toList ++ ".clas".toList := by decide
  exact ⟨hb, ha, hend, hne, hnl, hparen, hcls,
    removeSdkHelperCreate_single_call hb ha hend hne hnl hparen hcls⟩

end SdkMigration.Convert
