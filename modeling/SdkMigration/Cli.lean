import SdkMigration.Java.Pipeline
import SdkMigration.Pom
import Mathlib.Data.String.Basic

/-!
# The command line of the Java/POM tool

Both `convert.py` scripts end with the same top-level code: a loop over the arguments that
converts a `.java` file argument, a `pom.xml` argument, or every `.java` and `pom.xml` file
found by `os.walk` under a directory argument, then a report of the warnings collected in a
dictionary keyed by file name, then a usage text when there were no arguments.  The two
scripts differ only in the text transformations they plug in, so the run takes them as a
`Converter`.

The file system is a `FileTree` relative to the working directory.  The process state
records the tree, the lines printed so far and the paths written, in order.  Nothing in the
scripts catches an error: an `open` of a missing file, a read whose bytes do not decode or
that is not permitted, and an `open(filepath, 'w')` that is not permitted all stop the run,
so a run is an `Except` whose error is the state at the moment it stopped.

A run only ever overwrites files it has read, whether it finishes or crashes
(`main_keeps_files`).  On arguments that name no directory it does what its usage text says:
each file ends up converted once for each argument that names it, and every other argument
is refused with a message (`main_file_args`).  Where it goes wrong is elsewhere: a directory
argument rewrites the working directory's `pom.xml` (`main_pom_paths`), so that no run ever
converts a `pom.xml` below the working directory (`main_pom_written`), and the report loses
warnings (`main_drops_warnings`).

## Honest boundary

Paths are relative to the working directory, and `resolve` drops empty and `.` components;
the empty string names no file and no directory, as for `os.path`.  Absolute paths, `..` and
symbolic links are not modelled.  `os.walk` visits directories in the order of
`FileTree.dirs`, which a tree lists top-down.

A file's contents are what Python's text mode shows of it: its bytes decoded in the locale's
encoding, with `\r\n` and `\r` read as `\n`.  Written back, a text ends its lines with `\n`,
so a file converted without change of text still loses its `\r`s; the tree does not show
that.  Which files raise on the read (bytes that do not decode, or no permission to read) and
which refuse `open(filepath, 'w')` is part of the tree (`unreadable`, `readOnly`), and the
theorems that say a run finishes assume that none of the files it opens is among them.
Writing a text that was decoded cannot fail to encode, since everything the conversions
insert is ASCII.  Other failures of the operating system (a full disk, a file that changes
during the run) are not modelled.
-/

namespace SdkMigration.Cli

/-- A file tree relative to the working directory: files with their contents, and
directories, each under its list of path components, and which files cannot be read or
written.  The working directory is a directory and not a file, and every file lies in a
directory. -/
structure FileTree where
  files : List (List String × List Char)
  dirs : List (List String)
  /-- The files whose text-mode read raises: their bytes do not decode, or reading them is
  not permitted. -/
  unreadable : List (List String)
  /-- The files that `open(filepath, 'w')` refuses. -/
  readOnly : List (List String)
  root_mem : [] ∈ dirs
  path_ne_nil : ∀ f ∈ files, f.1 ≠ []
  parent_mem : ∀ f ∈ files, f.1.dropLast ∈ dirs

/-- The components of a path string: empty and `.` components are dropped. -/
def resolve (s : String) : List String :=
  ((s.toList.splitOn '/').filter fun c => c ≠ [] ∧ c ≠ ['.']).map String.mk

namespace FileTree

/-- The contents of the file at a path. -/
def read (t : FileTree) (p : List String) : Option (List Char) :=
  (t.files.find? (·.1 = p)).map (·.2)

/-- Overwrite the file at a path. -/
def write (t : FileTree) (p : List String) (c : List Char) : FileTree where
  files := t.files.map fun f => if f.1 = p then (p, c) else f
  dirs := t.dirs
  unreadable := t.unreadable
  readOnly := t.readOnly
  root_mem := t.root_mem
  path_ne_nil := by
    simp only [List.mem_map]
    rintro _ ⟨f, hf, rfl⟩
    split
    · next h => exact h ▸ t.path_ne_nil f hf
    · exact t.path_ne_nil f hf
  parent_mem := by
    simp only [List.mem_map]
    rintro _ ⟨f, hf, rfl⟩
    split
    · next h => exact h ▸ t.parent_mem f hf
    · exact t.parent_mem f hf

/-- `open(filepath, 'r').read()`: the text of the file, or `none` where it raises, because
the file is missing, its bytes do not decode or reading it is not permitted. -/
def readText (t : FileTree) (p : List String) : Option (List Char) :=
  if p ∈ t.unreadable then none else t.read p

/-- The file at `p` can be read as text and opened for writing. -/
def Opens (t : FileTree) (p : List String) : Prop := p ∉ t.unreadable ∧ p ∉ t.readOnly

instance (t : FileTree) (p : List String) : Decidable (t.Opens p) :=
  inferInstanceAs (Decidable (_ ∧ _))

/-- `os.path.isfile(s)`. -/
def isFile (t : FileTree) (s : String) : Bool := t.files.any (·.1 = resolve s)

/-- `os.path.isdir(s)`: the empty string names no directory. -/
def isDir (t : FileTree) (s : String) : Bool := s ≠ "" && resolve s ∈ t.dirs

@[simp] theorem unreadable_write (t : FileTree) (p : List String) (c : List Char) :
    (t.write p c).unreadable = t.unreadable := rfl

@[simp] theorem readOnly_write (t : FileTree) (p : List String) (c : List Char) :
    (t.write p c).readOnly = t.readOnly := rfl

end FileTree

/-- `os.path.join(a, b)` for a relative `b`. -/
def pathJoin (a b : String) : String :=
  if a.isEmpty || a.toList.getLast? = some '/' then a ++ b else a ++ "/" ++ b

/-- `os.walk(top)`: the directory `top` and each directory below it, with the path string
`os.walk` yields for it and the names of the files in it. -/
def walk (t : FileTree) (top : String) : List (String × List String) :=
  (t.dirs.filter fun d => resolve top <+: d).map fun d =>
    ((d.drop (resolve top).length).foldl pathJoin top,
      (t.files.filter fun f => f.1.dropLast = d).map fun f => f.1.getLastD "")

/-- `s[-5:]`. -/
def lastFive (s : String) : String := String.mk (s.toList.drop (s.length - 5))

/-- The process state: the tree, the lines printed so far, and the paths written. -/
structure Proc where
  tree : FileTree
  out : List String
  written : List (List String)

/-- What a run of the process ends in: `.ok` when it finishes, `.error` with the state at the
moment an uncaught error stopped it. -/
abbrev Run (α : Type) := Except Proc α

/-- The text transformations a script plugs into its command line. -/
structure Converter where
  javaText : List Char → List Char
  pomText : List Char → List Char

/-- The transformations of `scripts/convert.py`. -/
def scriptsConverter : Converter := ⟨ScriptsConvert.convertJavaText, ScriptsConvert.convertPomText⟩

/-- The transformations of `convert.py`. -/
def topConverter : Converter := ⟨TopConvert.convertJavaText, TopConvert.convertPomText⟩

/-- The warnings of `convert_java` for one file. -/
abbrev Warnings := List (Option String)

/-- Read, transform and write one file, then print `Converted <path>`.  A read that raises
and an `open(filepath, 'w')` that raises both stop the run before anything is printed or
written. -/
def convertFile (f : List Char → List Char) (st : Proc) (filepath : String) :
    Run (Proc × List Char) :=
  match st.tree.readText (resolve filepath) with
  | none => .error st
  | some contents =>
    if resolve filepath ∈ st.tree.readOnly then .error st
    else
      .ok ({ tree := st.tree.write (resolve filepath) (f contents)
             out := st.out ++ ["Converted " ++ filepath]
             written := st.written ++ [resolve filepath] }, f contents)

/-- What one conversion can do: stop with the state as it was, or overwrite a file it read
with the file's transformed text. -/
theorem convertFile_cases (f : List Char → List Char) (st : Proc) (filepath : String) :
    convertFile f st filepath = .error st ∨ ∃ x, st.tree.read (resolve filepath) = some x ∧
      convertFile f st filepath = .ok (⟨st.tree.write (resolve filepath) (f x),
        st.out ++ ["Converted " ++ filepath], st.written ++ [resolve filepath]⟩, f x) := by
  unfold convertFile FileTree.readText
  split
  · exact .inl rfl
  · next x hx =>
    split at hx
    · cases hx
    · split
      · exact .inl rfl
      · exact .inr ⟨x, hx, rfl⟩

/-- A conversion of a file that opens finishes. -/
theorem convertFile_of_opens (f : List Char → List Char) (st : Proc) {filepath : String}
    {x : List Char} (hx : st.tree.read (resolve filepath) = some x)
    (ho : st.tree.Opens (resolve filepath)) :
    convertFile f st filepath = .ok (⟨st.tree.write (resolve filepath) (f x),
      st.out ++ ["Converted " ++ filepath], st.written ++ [resolve filepath]⟩, f x) := by
  simp only [convertFile, FileTree.readText, if_neg ho.1, hx, if_neg ho.2]

/-- A conversion of a missing file stops the run. -/
theorem convertFile_of_read_eq_none {f : List Char → List Char} {st : Proc} {filepath : String}
    (h : st.tree.read (resolve filepath) = none) : convertFile f st filepath = .error st := by
  unfold convertFile FileTree.readText
  split_ifs <;> simp only [h]

/-- `convert_java(filepath)`, which returns its list of warnings. -/
def convertJava (c : Converter) (st : Proc) (filepath : String) : Run (Proc × Warnings) :=
  (convertFile c.javaText st filepath).map fun r => (r.1, [Convert.checkForSubComponents r.2])

/-- `convert_pom(filepath)`. -/
def convertPom (c : Converter) (st : Proc) (filepath : String) : Run Proc :=
  (convertFile c.pomText st filepath).map (·.1)

/-- `warnings[key] = value` on a dictionary kept in insertion order. -/
def dictSet {α : Type} (d : List (String × α)) (key : String) (value : α) :
    List (String × α) :=
  if d.any (·.1 = key) then d.map fun e => if e.1 = key then (key, value) else e
  else d ++ [(key, value)]

/-- The loop state: the process, and the dictionary `warnings`. -/
abbrev LoopState := Proc × List (String × Warnings)

/-- The body of `for path in files`, for a file `path` found under `root`. -/
def walkFile (c : Converter) (root : String) (st : LoopState) (path : String) : Run LoopState := do
  let st ← if lastFive path = ".java" then
      (convertJava c st.1 (pathJoin root path)).map fun r => (r.1, dictSet st.2 path r.2)
    else pure st
  if path = "pom.xml" then (convertPom c st.1 path).map fun p => (p, st.2) else pure st

/-- The body of `for filepath in sys.argv[1:]`. -/
def processArg (c : Converter) (st : LoopState) (filepath : String) : Run LoopState :=
  if st.1.tree.isFile filepath ∧ lastFive filepath = ".java" then
    (convertJava c st.1 filepath).map fun r => (r.1, st.2)
  else if st.1.tree.isFile filepath ∧ filepath = "pom.xml" then
    (convertPom c st.1 filepath).map fun q => (q, st.2)
  else if st.1.tree.isDir filepath then
    (walk st.1.tree filepath).foldlM
      (fun st d => d.2.foldlM (walkFile c d.1) st) st
  else
    .ok ({ st.1 with out := st.1.out ++ [filepath ++ " is not a valid Java file, pom.xml, or directory."] },
      st.2)

/-- The report loop over `warnings.items()`. -/
def report (warnings : List (String × Warnings)) : List String :=
  warnings.flatMap fun (filepath, warningList) =>
    if warningList.isEmpty || (warningList.filter (· ≠ none)).length = 0 then []
    else (filepath ++ " warnings:") :: warningList.filterMap (·.map ("  - " ++ ·))

/-- The usage text printed when there are no arguments. -/
def usage : List String := [
  "Usage: %s [<path-to-java-file> | <path-to-pom> | <path-to-directory>]+",
  "Converts files from v5.0.x API to v6.0.x API.  NOTE:  Overwrites files. This conversion " ++
    "is not a guaranteed fix for all issues and may generate bad code. Please review all " ++
    "changes before committing.",
  "   <path-to-java-file>    :  relative or absolute path to java file to convert",
  "   <path-to-pom>          :  relative or absolute path to pom.xml file to convert",
  "   <path-to-directory>    :  relative or absolute path to a directory with .java or " ++
    "pom.xml files to convert"]

/-- The whole run of the script on the arguments `sys.argv[1:]`. -/
def main (c : Converter) (args : List String) (t : FileTree) : Run Proc := do
  let st ← args.foldlM (processArg c) (⟨t, [], []⟩, [])
  let out := st.1.out ++ report st.2 ++ if args.length = 0 then usage else []
  pure { st.1 with out := out }

set_option maxRecDepth 100000 in
/-- A directory argument rewrites the `pom.xml` of the working directory, because the walk
passes the bare name `pom.xml`, and leaves the one in the directory as it was; and the path
of that file as an argument is refused, since only the literal `pom.xml` is accepted. -/
theorem main_pom_paths :
    ((main scriptsConverter ["proj"]
        ⟨[(["pom.xml"], "<source>17</source>".toList),
          (["proj", "pom.xml"], "<source>17</source>".toList)], [[], ["proj"]],
          [], [], by decide, by decide, by decide⟩).toOption.map
      fun p => (p.written, p.tree.read ["pom.xml"], p.tree.read ["proj", "pom.xml"])) =
      some ([["pom.xml"]], some "<source>21</source>".toList, some "<source>17</source>".toList) ∧
    ((main scriptsConverter ["proj/pom.xml"]
        ⟨[(["proj", "pom.xml"], "<source>17</source>".toList)], [[], ["proj"]],
          [], [], by decide, by decide, by decide⟩).toOption.map
      fun p => (p.written, p.out)) =
      some ([], ["proj/pom.xml is not a valid Java file, pom.xml, or directory."]) := by
  decide

set_option maxRecDepth 100000 in
/-- `convert_java` warns about a `@Locate` without a locator, but the report drops the
warning when the file is an argument, and when a later file of the same name in another
directory is converted. -/
theorem main_drops_warnings :
    ((convertJava scriptsConverter
        ⟨⟨[(["A.java"], "@Locate(foo)".toList)], [[]], [], [], by decide, by decide, by decide⟩, [], []⟩
        "A.java").toOption.map (·.2)) = some [some Convert.subComponentWarning] ∧
    ((main scriptsConverter ["A.java"]
        ⟨[(["A.java"], "@Locate(foo)".toList)], [[]], [], [], by decide, by decide, by decide⟩).toOption.map
      (·.out)) = some ["Converted A.java"] ∧
    ((main scriptsConverter ["p"]
        ⟨[(["p", "a", "X.java"], "@Locate(foo)".toList), (["p", "b", "X.java"], [])],
          [[], ["p"], ["p", "a"], ["p", "b"]], [], [], by decide, by decide, by decide⟩).toOption.map
      (·.out)) = some ["Converted p/a/X.java", "Converted p/b/X.java"] := by
  decide

/-! ## What a run keeps

Facts about the state a run ends in, whether it finishes or stops on an error, are stated
with `Ends`.  Each is proved once for one file conversion, at the path strings the script
converts (`ConvertedPath`), and carried through the loops by `ends_main`.  Two such facts
follow: a run only overwrites files it has read, creating and deleting none
(`main_keeps_files`), and every `pom.xml` it writes is the working directory's
(`main_pom_written`). -/

/-- The state a run ends in, whether it finishes or stops on an error, satisfies `P`; `proj`
reads the process state out of a finished run's result. -/
def Ends {α : Type} (P : Proc → Prop) (proj : α → Proc) : Run α → Prop
  | .ok a => P (proj a)
  | .error p => P p

section Ends

variable {α β γ : Type} {P : Proc → Prop}

theorem ends_bind {x : Run α} {f : α → Run β} (pa : α → Proc) {pb : β → Proc}
    (hx : Ends P pa x) (hf : ∀ a, P (pa a) → Ends P pb (f a)) : Ends P pb (x >>= f) := by
  cases x with
  | error p => exact hx
  | ok a => exact hf a hx

theorem ends_map {x : Run α} {g : α → β} {pa : α → Proc} {pb : β → Proc}
    (hx : Ends P pa x) (hg : ∀ a, P (pa a) → P (pb (g a))) : Ends P pb (x.map g) := by
  cases x with
  | error p => exact hx
  | ok a => exact hg a hx

/-- A property every step keeps holds at the end of a loop. -/
theorem ends_foldlM {f : α → γ → Run α} {proj : α → Proc}
    (hf : ∀ a x, P (proj a) → Ends P proj (f a x)) :
    ∀ (l : List γ) (init : α), P (proj init) → Ends P proj (l.foldlM f init)
  | [], _, h => h
  | x :: l, init, h => by
    rw [List.foldlM_cons]
    exact ends_bind proj (hf init x h) fun a ha => ends_foldlM hf l a ha

/-- What a finished run's state satisfies. -/
theorem Ends.of_ok {proj : α → Proc} {x : Run α} {a : α} (h : Ends P proj x) (he : x = .ok a) :
    P (proj a) := by
  subst he
  exact h

/-- A loop finishes when each of its steps, from a state satisfying `Q`, finishes in one. -/
theorem ok_foldlM {Q : α → Prop} {f : α → γ → Run α} :
    ∀ (l : List γ) (init : α), (∀ a, ∀ x ∈ l, Q a → ∃ b, f a x = .ok b ∧ Q b) → Q init →
      ∃ b, l.foldlM f init = .ok b ∧ Q b
  | [], init, _, h => ⟨init, rfl, h⟩
  | x :: l, init, hf, h => by
    obtain ⟨b, hb, hQ⟩ := hf init x (List.mem_cons_self _ _) h
    rw [List.foldlM_cons, hb]
    exact ok_foldlM l b (fun a y hy => hf a y (List.mem_cons_of_mem _ hy)) hQ

/-- A loop stops on an error when one of its steps does from every state satisfying `Q`, and
each step that finishes keeps `Q`. -/
theorem foldlM_ne_ok {Q : α → Prop} {f : α → γ → Run α}
    (hf : ∀ a x b, Q a → f a x = .ok b → Q b) {x : γ} (hx : ∀ a b, Q a → f a x ≠ .ok b) :
    ∀ (l : List γ) (init : α), x ∈ l → Q init → ∀ b, l.foldlM f init ≠ .ok b
  | [], _, hmem, _, _ => absurd hmem (List.not_mem_nil _)
  | y :: l, init, hmem, h, b => by
    rw [List.foldlM_cons]
    cases hy : f init y with
    | error e => exact fun he => Except.noConfusion he
    | ok a =>
      rcases List.mem_cons.mp hmem with rfl | hmem
      · exact absurd hy (hx init a h)
      · exact foldlM_ne_ok hf hx l a hmem (hf init y a h hy) b

end Ends

/-- The path strings the script hands to `convert_java` and `convert_pom`: those that end
in `.java`, and the bare name `pom.xml`. -/
def ConvertedPath (s : String) : Prop := ".java".toList <:+ s.toList ∨ s = "pom.xml"

theorem suffix_of_lastFive {s e : String} (h : lastFive s = e) : e.toList <:+ s.toList :=
  h ▸ List.drop_suffix _ _

theorem suffix_pathJoin (root path : String) : path.toList <:+ (pathJoin root path).toList := by
  unfold pathJoin
  split <;> exact List.suffix_append _ _

section Runs

/-! Every step of a run converts `.java` files with the text transformation of `convert_java`
and the bare name `pom.xml` with that of `convert_pom`, so an invariant that each such
conversion keeps, and that a change of the printed lines keeps, holds at the end of every
run. -/

variable (c : Converter) {I : Proc → Prop}
  (hjava : ∀ (st : Proc) (s : String), I st → ".java".toList <:+ s.toList →
    Ends I Prod.fst (convertFile c.javaText st s))
  (hpom : ∀ st : Proc, I st → Ends I Prod.fst (convertFile c.pomText st "pom.xml"))
  (hout : ∀ (st : Proc) (out : List String), I st → I { st with out := out })
include hjava hpom

theorem ends_walkFile_of (root : String) {st : LoopState} (hst : I st.1) (path : String) :
    Ends I Prod.fst (walkFile c root st path) := by
  have hp : ∀ st' : LoopState, I st'.1 → Ends I Prod.fst
      (if path = "pom.xml" then (convertPom c st'.1 path).map fun p => (p, st'.2)
        else pure st') := by
    intro st' h'
    split
    · next hp => exact ends_map (ends_map (hp ▸ hpom _ h') fun _ h => h) fun _ h => h
    · exact h'
  unfold walkFile
  dsimp only
  split
  · next hj =>
    exact ends_bind Prod.fst (ends_map (ends_map (hjava _ _ hst
      ((suffix_of_lastFive hj).trans (suffix_pathJoin root path))) fun _ h => h) fun _ h => h) hp
  · exact hp st hst

include hout

theorem ends_processArg_of {st : LoopState} (hst : I st.1) (filepath : String) :
    Ends I Prod.fst (processArg c st filepath) := by
  unfold processArg
  split
  · next hj => exact ends_map (ends_map (hjava _ _ hst (suffix_of_lastFive hj.2))
      fun _ h => h) fun _ h => h
  · split
    · next hp => exact ends_map (ends_map (hp.2 ▸ hpom _ hst) fun _ h => h) fun _ h => h
    · split
      · exact ends_foldlM (fun st d h => ends_foldlM (fun st' x h' =>
          ends_walkFile_of c hjava hpom d.1 h' x) d.2 st h) _ st hst
      · exact hout _ _ hst

theorem ends_main_of (args : List String) (t : FileTree) (hinit : I ⟨t, [], []⟩) :
    Ends I id (main c args t) :=
  ends_bind Prod.fst
    (ends_foldlM (fun _ x h => ends_processArg_of c hjava hpom hout h x) args _ hinit)
    fun _ h => hout _ _ h

end Runs

/-- An invariant that every conversion at a `ConvertedPath` keeps, whatever its
transformation, holds at the end of every run. -/
theorem ends_main (c : Converter) {I : Proc → Prop}
    (hconv : ∀ (f : List Char → List Char) (st : Proc) (s : String), I st → ConvertedPath s →
      Ends I Prod.fst (convertFile f st s))
    (hout : ∀ (st : Proc) (out : List String), I st → I { st with out := out })
    (args : List String) (t : FileTree) (hinit : I ⟨t, [], []⟩) : Ends I id (main c args t) :=
  ends_main_of c (fun st s h hs => hconv _ st s h (.inl hs)) (fun st h => hconv _ st _ h (.inr rfl))
    hout args t hinit

/-- The state has the files and directories of `t`, whatever their contents, and the same
files that cannot be read or written, and has written only files of `t`. -/
structure Keeps (t : FileTree) (st : Proc) : Prop where
  paths : st.tree.files.map Prod.fst = t.files.map Prod.fst
  dirs : st.tree.dirs = t.dirs
  unreadable : st.tree.unreadable = t.unreadable
  readOnly : st.tree.readOnly = t.readOnly
  written : ∀ w ∈ st.written, w ∈ t.files.map Prod.fst

theorem keeps_init (t : FileTree) : Keeps t ⟨t, [], []⟩ :=
  ⟨rfl, rfl, rfl, rfl, by simp⟩

theorem Keeps.with_out {t : FileTree} {st : Proc} (hst : Keeps t st) (out : List String) :
    Keeps t { st with out := out } :=
  ⟨hst.paths, hst.dirs, hst.unreadable, hst.readOnly, hst.written⟩

/-- A file of `t` that opens still opens in a state that keeps `t`. -/
theorem Keeps.opens {t : FileTree} {st : Proc} (hst : Keeps t st) {p : List String}
    (h : t.Opens p) : st.tree.Opens p := by
  rw [FileTree.Opens, hst.unreadable, hst.readOnly]
  exact h

theorem FileTree.paths_write (t : FileTree) (p : List String) (c : List Char) :
    (t.write p c).files.map Prod.fst = t.files.map Prod.fst := by
  simp only [FileTree.write, List.map_map]
  refine List.map_congr_left fun f _ => ?_
  simp only [Function.comp_apply]
  split
  · next h => exact h.symm
  · rfl

theorem FileTree.mem_paths_of_read {t : FileTree} {p : List String} {c : List Char}
    (h : t.read p = some c) : p ∈ t.files.map Prod.fst := by
  obtain ⟨f, hf, -⟩ := Option.map_eq_some'.mp h
  have := List.find?_some hf
  exact List.mem_map.mpr ⟨f, List.mem_of_find?_eq_some hf, by simpa using this⟩

/-- Overwriting a file that was read keeps the tree's paths, and writes a file of `t`. -/
theorem Keeps.write {t : FileTree} {st : Proc} (hst : Keeps t st) {p : List String}
    {x : List Char} (hread : st.tree.read p = some x) (v : List Char) (out : List String) :
    Keeps t ⟨st.tree.write p v, out, st.written ++ [p]⟩ := by
  refine ⟨by rw [FileTree.paths_write]; exact hst.paths, hst.dirs, hst.unreadable, hst.readOnly,
    fun w hw => ?_⟩
  rcases List.mem_append.mp hw with hw | hw
  · exact hst.written w hw
  · rw [List.mem_singleton.mp hw, ← hst.paths]
    exact FileTree.mem_paths_of_read hread

theorem keeps_convertFile {t : FileTree} (f : List Char → List Char) {st : Proc}
    (hst : Keeps t st) (filepath : String) : Ends (Keeps t) Prod.fst (convertFile f st filepath) := by
  rcases convertFile_cases f st filepath with h | ⟨x, hx, h⟩ <;> rw [h]
  · exact hst
  · exact hst.write hx _ _

/-- Every run of the tool, finished or stopped on an error, creates and deletes no file or
directory, and every path it has written is a file of the tree it started from. -/
theorem main_keeps_files (c : Converter) (args : List String) (t : FileTree) :
    Ends (Keeps t) id (main c args t) :=
  ends_main c (fun f _ s h _ => keeps_convertFile f h s) (fun _ out h => h.with_out out) args t
    (keeps_init t)

/-! ## Which `pom.xml` a run converts -/

/-- A slash between two texts separates their components. -/
theorem resolve_mk_append_slash (x y : List Char) :
    resolve ⟨x ++ '/' :: y⟩ = resolve ⟨x⟩ ++ resolve ⟨y⟩ := by
  show (((x ++ '/' :: y).splitOn '/').filter _).map _ = _
  rw [List.splitOn, splitOnP_append_cons (p := (· == '/')) (beq_self_eq_true '/') x y,
    List.filter_append,
    List.map_append]
  rfl

/-- `os.path.join` appends the components of the second path to those of the first. -/
theorem resolve_pathJoin (a b : String) : resolve (pathJoin a b) = resolve a ++ resolve b := by
  obtain ⟨x⟩ := a
  obtain ⟨y⟩ := b
  unfold pathJoin
  split
  · next h =>
    simp only [Bool.or_eq_true, decide_eq_true_eq, String.isEmpty_iff] at h
    rcases h with h | h
    · obtain rfl : x = [] := congrArg String.data h
      rfl
    · obtain ⟨x', rfl⟩ : ∃ x', x = x' ++ ['/'] := ⟨_, (List.dropLast_append_getLast? _ h).symm⟩
      show resolve ⟨(x' ++ ['/']) ++ y⟩ = resolve ⟨x' ++ ['/']⟩ ++ resolve ⟨y⟩
      rw [List.append_assoc, List.singleton_append, resolve_mk_append_slash,
        resolve_mk_append_slash, show resolve ⟨[]⟩ = [] from rfl, List.append_nil]
  · exact (congrArg resolve (String.ext (by simp))).trans (resolve_mk_append_slash x y)

/-- A path string that ends in a word without `/`, other than `.`, has a last component that
ends in that word. -/
theorem getLast?_resolve_of_suffix {s : String} {y : List Char} (hy : '/' ∉ y) (hne : y ≠ [])
    (hdot : y ≠ ['.']) (h : y <:+ s.toList) :
    ∃ u, (resolve s).getLast? = some (String.mk (u ++ y)) := by
  obtain ⟨x, hx⟩ := h
  obtain ⟨u, hu⟩ := getLast?_splitOnP_append (p := (· == '/'))
    (fun b hb hb' => hy (beq_iff_eq.mp hb' ▸ hb)) x
  have hdot' : u ++ y ≠ ['.'] := by
    cases u with
    | nil => exact hdot
    | cons a u => exact fun he => hne (List.append_eq_nil.mp (List.cons_eq_cons.mp he).2).2
  have hlast := getLast?_filter_of_getLast? (q := fun c => decide (c ≠ [] ∧ c ≠ ['.'])) hu
    (decide_eq_true ⟨List.append_ne_nil_of_right_ne_nil u hne, hdot'⟩)
  rw [resolve, ← hx, List.splitOn, List.getLast?_map, hlast]
  exact ⟨u, rfl⟩

/-- The components of a path string that ends in `.java` end in a component other than
`pom.xml`. -/
theorem getLast?_resolve_ne_pom {s : String} (h : ".java".toList <:+ s.toList) :
    (resolve s).getLast? ≠ some "pom.xml" := by
  obtain ⟨u, hu⟩ := getLast?_resolve_of_suffix (by decide) (by decide) (by decide) h
  rw [hu]
  intro he
  have hsuf : ".java".toList <:+ "pom.xml".toList :=
    congrArg String.toList (Option.some.inj he) ▸ List.suffix_append u _
  exact absurd hsuf (by decide)

/-- Every `pom.xml` a run has written, finished or stopped on an error, is the one in the
working directory: the walk of a directory argument hands `convert_pom` the bare name, and
the `pom.xml` of a subdirectory is never converted. -/
theorem main_pom_written (c : Converter) (args : List String) (t : FileTree) :
    Ends (fun st => ∀ w ∈ st.written, w.getLast? = some "pom.xml" → w = ["pom.xml"]) id
      (main c args t) := by
  refine ends_main c (fun f st s hst hs => ?_) (fun _ _ h => h) args t (by simp)
  rcases convertFile_cases f st s with h | ⟨x, -, h⟩ <;> rw [h]
  · exact hst
  · intro w hw hlast
    rcases List.mem_append.mp hw with hw | hw
    · exact hst w hw hlast
    · rw [List.mem_singleton.mp hw] at hlast ⊢
      rcases hs with hj | rfl
      · exact absurd hlast (getLast?_resolve_ne_pom hj)
      · decide

/-! ## Runs on file arguments

Where no argument names a directory, a run is the loop over its arguments and the empty
report: each argument is converted as a `.java` file or as `pom.xml`, or refused with a
message, and what a file ends up holding is its contents put through the transformation of
each argument that names it, in order.  The argument branches drop the warnings of
`convert_java`, so none is ever reported.  A step lemma per kind of argument
(`processArg_of_some`, `processArg_of_none`) gives the loop (`foldlM_processArg`) by
induction on the arguments. -/

theorem FileTree.isSome_read (t : FileTree) (p : List String) :
    (t.read p).isSome = t.files.any (·.1 = p) := by
  rw [FileTree.read, Option.isSome_map']
  exact Bool.eq_iff_iff.mpr (by simp [List.find?_isSome, List.any_eq_true])

theorem FileTree.read_write (t : FileTree) (p q : List String) (v : List Char) :
    (t.write p v).read q = if p = q then (t.read q).map fun _ => v else t.read q := by
  have hpred : ((fun f : List String × List Char => decide (f.1 = q)) ∘
      fun f => if f.1 = p then (p, v) else f) = fun f => decide (f.1 = q) := by
    funext f
    simp only [Function.comp_apply]
    split <;> simp_all
  rw [FileTree.read, FileTree.read, FileTree.write, List.find?_map, hpred, Option.map_map]
  cases h : t.files.find? (·.1 = q) with
  | none => split <;> rfl
  | some f =>
    have hf : f.1 = q := by simpa using List.find?_some h
    split
    · next hpq => simp [hf, hpq]
    · next hpq => simp [Ne.symm hpq, hf]

theorem FileTree.isFile_write (t : FileTree) (p : List String) (v : List Char) (s : String) :
    (t.write p v).isFile s = t.isFile s := by
  rw [FileTree.isFile, FileTree.isFile, ← FileTree.isSome_read, ← FileTree.isSome_read,
    FileTree.read_write]
  split <;> simp

/-- The transformation the first two branches of the argument loop apply to `filepath`, and
`none` where they refuse it. -/
def argConverter (c : Converter) (t : FileTree) (filepath : String) :
    Option (List Char → List Char) :=
  if t.isFile filepath ∧ lastFive filepath = ".java" then some c.javaText
  else if t.isFile filepath ∧ filepath = "pom.xml" then some c.pomText
  else none

/-- The line the argument loop prints for an argument that is no directory. -/
def argMessage (c : Converter) (t : FileTree) (filepath : String) : String :=
  if (argConverter c t filepath).isSome then "Converted " ++ filepath
  else filepath ++ " is not a valid Java file, pom.xml, or directory."

/-- The contents `x` of the file at `q` after each argument that names it has applied its
transformation, in order. -/
def argsApply (c : Converter) (t : FileTree) (args : List String) (q : List String)
    (x : List Char) : List Char :=
  args.foldl (fun x a => if resolve a = q then (argConverter c t a).getD id x else x) x

theorem argsApply_nil (c : Converter) (t : FileTree) (q : List String) :
    argsApply c t [] q = id := rfl

theorem argsApply_cons (c : Converter) (t : FileTree) (a : String) (args : List String)
    (q : List String) (x : List Char) :
    argsApply c t (a :: args) q x =
      argsApply c t args q (if resolve a = q then (argConverter c t a).getD id x else x) := rfl

section FileArgs

variable (c : Converter) {tr : FileTree} {a : String}

theorem argConverter_write (p : List String) (v : List Char) :
    argConverter c (tr.write p v) = argConverter c tr := by
  funext a
  simp only [argConverter, FileTree.isFile_write]

theorem read_of_isFile (h : tr.isFile a = true) : ∃ x, tr.read (resolve a) = some x :=
  Option.isSome_iff_exists.mp (by rw [FileTree.isSome_read]; exact h)

/-- An argument the loop converts, naming a file that opens: the file is read, transformed
and written back. -/
theorem processArg_of_some (out : List String) (wr : List (List String))
    (w : List (String × Warnings)) {f : List Char → List Char}
    (hf : argConverter c tr a = some f) (ho : tr.Opens (resolve a)) :
    ∃ x, tr.read (resolve a) = some x ∧ processArg c (⟨tr, out, wr⟩, w) a =
      .ok (⟨tr.write (resolve a) (f x), out ++ ["Converted " ++ a], wr ++ [resolve a]⟩, w) := by
  unfold argConverter at hf
  split_ifs at hf with h1 h2 <;> cases hf
  · obtain ⟨x, hx⟩ := read_of_isFile h1.1
    refine ⟨x, hx, ?_⟩
    simp only [processArg, if_pos h1, convertJava, convertFile_of_opens c.javaText ⟨tr, out, wr⟩ hx ho]
    rfl
  · obtain ⟨x, hx⟩ := read_of_isFile h2.1
    refine ⟨x, hx, ?_⟩
    simp only [processArg, if_neg h1, if_pos h2, convertPom, convertFile_of_opens c.pomText ⟨tr, out, wr⟩ hx ho]
    rfl

/-- An argument the loop refuses, and that names no directory: a message and nothing else. -/
theorem processArg_of_none (out : List String) (wr : List (List String))
    (w : List (String × Warnings)) (hf : argConverter c tr a = none) (hd : tr.isDir a = false) :
    processArg c (⟨tr, out, wr⟩, w) a =
      .ok (⟨tr, out ++ [a ++ " is not a valid Java file, pom.xml, or directory."], wr⟩, w) := by
  unfold argConverter at hf
  split_ifs at hf with h1 h2
  simp only [processArg, if_neg h1, if_neg h2, hd, Bool.false_eq_true, if_false]

/-- The loop over arguments none of which names a directory, from a tree whose files are
those of `t0`. -/
theorem foldlM_processArg (t0 : FileTree) (w : List (String × Warnings)) :
    ∀ (args : List String) (tr : FileTree) (out wr),
    argConverter c tr = argConverter c t0 → (∀ a ∈ args, tr.isDir a = false) →
    (∀ a ∈ args, (argConverter c t0 a).isSome → tr.Opens (resolve a)) →
    ∃ tr', args.foldlM (processArg c) (⟨tr, out, wr⟩, w) =
        .ok (⟨tr', out ++ args.map (argMessage c t0),
          wr ++ (args.filter fun a => (argConverter c t0 a).isSome).map resolve⟩, w) ∧
      ∀ q, tr'.read q = (tr.read q).map (argsApply c t0 args q)
  | [], tr, out, wr, _, _, _ =>
    ⟨tr, by simp only [List.map_nil, List.filter_nil, List.append_nil, List.foldlM_nil]; rfl,
      fun q => by simp [argsApply_nil]⟩
  | a :: args, tr, out, wr, hc, hd, ho => by
    have hd' : ∀ b ∈ args, tr.isDir b = false := fun b hb => hd b (List.mem_cons_of_mem _ hb)
    have ho' : ∀ b ∈ args, (argConverter c t0 b).isSome → tr.Opens (resolve b) :=
      fun b hb => ho b (List.mem_cons_of_mem _ hb)
    cases hf : argConverter c tr a with
    | none =>
      have hf0 : argConverter c t0 a = none := hc ▸ hf
      obtain ⟨tr', hrun, hread⟩ := foldlM_processArg t0 w args tr
        (out ++ [a ++ " is not a valid Java file, pom.xml, or directory."]) wr hc hd' ho'
      refine ⟨tr', ?_, fun q => ?_⟩
      · rw [List.foldlM_cons, processArg_of_none c out wr w hf (hd a (List.mem_cons_self _ _))]
        simpa [argMessage, hf0] using hrun
      · rw [hread]
        congr 1
        funext x
        simp [argsApply_cons, hf0]
    | some f =>
      have hf0 : argConverter c t0 a = some f := hc ▸ hf
      obtain ⟨x, hx, hstep⟩ := processArg_of_some c out wr w hf
        (ho a (List.mem_cons_self _ _) (by rw [hf0]; rfl))
      obtain ⟨tr', hrun, hread⟩ := foldlM_processArg t0 w args (tr.write (resolve a) (f x))
        (out ++ ["Converted " ++ a]) (wr ++ [resolve a]) (by rw [argConverter_write, hc]) hd' ho'
      refine ⟨tr', ?_, fun q => ?_⟩
      · rw [List.foldlM_cons, hstep]
        simpa [argMessage, hf0] using hrun
      · rw [hread, FileTree.read_write]
        split
        · next h => subst h; simp [hx, argsApply_cons, hf0]
        · next h =>
          congr 1
          funext y
          simp [argsApply_cons, h]

/-- A run whose arguments name no directory, and whose files to convert can be read and
written, finishes.  It prints `Converted <path>` for each argument it converts and a refusal
for each other one, and never a warning; it writes the paths of the converted arguments, in
order; and each file ends up holding its contents put through the transformation of every
argument that names it, in order, so a file named twice is converted twice. -/
theorem main_file_args (args : List String) (t : FileTree)
    (h : ∀ a ∈ args, t.isDir a = false)
    (ho : ∀ a ∈ args, (argConverter c t a).isSome → t.Opens (resolve a)) :
    ∃ p, main c args t = .ok p ∧
      p.out = args.map (argMessage c t) ++ (if args.length = 0 then usage else []) ∧
      p.written = (args.filter fun a => (argConverter c t a).isSome).map resolve ∧
      ∀ q, p.tree.read q = (t.read q).map (argsApply c t args q) := by
  obtain ⟨tr', hrun, hread⟩ := foldlM_processArg c t [] args t [] [] rfl h ho
  refine ⟨⟨tr', args.map (argMessage c t) ++ (if args.length = 0 then usage else []),
    (args.filter fun a => (argConverter c t a).isSome).map resolve⟩, ?_, rfl, rfl, hread⟩
  rw [main, hrun]
  exact congrArg Except.ok (by simp [report])

/-- A working directory holding an empty `A.java` and an empty `pom.xml`. -/
def javaAndPom : FileTree :=
  ⟨[(["A.java"], []), (["pom.xml"], [])], [[]], [], [], by decide, by decide, by decide⟩

set_option maxRecDepth 100000 in
/-- A `.java` file named twice and `pom.xml` once. -/
theorem main_file_args_twice :
    (∀ a ∈ ["A.java", "pom.xml", "A.java"], javaAndPom.isDir a = false) ∧
    (∀ a ∈ ["A.java", "pom.xml", "A.java"],
      (argConverter scriptsConverter javaAndPom a).isSome → javaAndPom.Opens (resolve a)) ∧
    ∃ p, main scriptsConverter ["A.java", "pom.xml", "A.java"] javaAndPom = .ok p ∧
      p.out = ["A.java", "pom.xml", "A.java"].map (argMessage scriptsConverter javaAndPom) ++
          (if ["A.java", "pom.xml", "A.java"].length = 0 then usage else []) ∧
      p.written = (["A.java", "pom.xml", "A.java"].filter fun a =>
        (argConverter scriptsConverter javaAndPom a).isSome).map resolve ∧
      ∀ q, p.tree.read q = (javaAndPom.read q).map
        (argsApply scriptsConverter javaAndPom ["A.java", "pom.xml", "A.java"] q) := by
  have hd : ∀ a ∈ ["A.java", "pom.xml", "A.java"], javaAndPom.isDir a = false := by decide
  have ho : ∀ a ∈ ["A.java", "pom.xml", "A.java"],
      (argConverter scriptsConverter javaAndPom a).isSome → javaAndPom.Opens (resolve a) := by
    decide
  exact ⟨hd, ho, main_file_args scriptsConverter _ _ hd ho⟩

end FileArgs

end SdkMigration.Cli
