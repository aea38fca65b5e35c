import SdkMigration.Walk
import SdkMigration.Appium

/-!
# The command line of the capability tool

`appium-conversion.py` ends with its own loop over its arguments.  A file argument whose name
ends in `.json` is rewritten by `update_appium_capabilities`; a directory argument has every
`.json` file that `os.walk` lists below it rewritten, under the directory string `os.walk`
yields joined with the file's name, each after a line `Processing file: <path>`; any other
argument is refused with a message; and a usage text follows when there were no arguments.
The file tree, the process state and `os.walk` are those of the Java/POM tool's command line.

As there, a run only overwrites files it has read, whether it finishes or crashes
(`run_keeps_files`), every file it writes has a name ending in `.json`
(`run_writes_json`), and each file ends up holding its contents put through the rewrite once
for each time the run wrote it (`run_iterated`).  Unlike there, the walk hands the rewrite the
joined path: on a tree that lists each path once and names its components as a file system
does (`FileTree.Plain`), a directory argument rewrites every `.json` file below the directory,
each once, and no other file (`main_directory_arg`).  And the script checks every argument
before it reads it, so on such a tree every run whose `.json` files can be read and written
finishes (`main_finishes`).

## Honest boundary

As for the other command line: paths are relative, empty and `.` components are dropped, and
`..` and symbolic links are not modelled; a file's contents are Python's text-mode view of it,
and a read that does not decode or is not permitted, or an `open(filepath, 'w')` that is not
permitted, raises uncaught.  `os.walk` lists the tree as it was when the walk began; a run
creates no file (`run_keeps_files`), so the listing it would see later is the same.
-/

namespace SdkMigration.Appium

open Cli (FileTree Proc Run resolve walk pathJoin lastFive Ends ends_bind ends_foldlM Keeps)

/-! ## The argument loop -/

/-- `update_appium_capabilities(filepath)` as a step of the process: read the file, print the
lines the rewrite prints, and write the text back.  A read that raises stops the run before
anything is printed; an `open(filepath, 'w')` that raises stops it once the rewrite has
printed its lines, with the file as it was. -/
def updateFile (st : Proc) (filepath : String) : Run Proc :=
  match st.tree.readText (resolve filepath) with
  | none => .error st
  | some contents =>
    if resolve filepath ∈ st.tree.readOnly then
      .error { st with out := st.out ++ (updateAppiumCapabilities filepath contents).printed }
    else
      .ok { tree := st.tree.write (resolve filepath)
              (updateAppiumCapabilities filepath contents).contents
            out := st.out ++ (updateAppiumCapabilities filepath contents).printed
            written := st.written ++ [resolve filepath] }

/-- What one rewrite can do: stop with the tree and the paths written as they were, or
overwrite a file it read with the rewritten text. -/
theorem updateFile_cases (st : Proc) (filepath : String) :
    (∃ out, updateFile st filepath = .error { st with out := out }) ∨
      ∃ x, st.tree.read (resolve filepath) = some x ∧ updateFile st filepath =
        .ok ⟨st.tree.write (resolve filepath) (updateAppiumCapabilities filepath x).contents,
          st.out ++ (updateAppiumCapabilities filepath x).printed, st.written ++ [resolve filepath]⟩ := by
  unfold updateFile FileTree.readText
  split
  · exact .inl ⟨st.out, rfl⟩
  · next x hx =>
    split at hx
    · cases hx
    · split
      · exact .inl ⟨_, rfl⟩
      · exact .inr ⟨x, hx, rfl⟩

/-- A rewrite of a file that opens finishes. -/
theorem updateFile_of_opens (st : Proc) {filepath : String} {x : List Char}
    (hx : st.tree.read (resolve filepath) = some x) (ho : st.tree.Opens (resolve filepath)) :
    updateFile st filepath =
      .ok ⟨st.tree.write (resolve filepath) (updateAppiumCapabilities filepath x).contents,
        st.out ++ (updateAppiumCapabilities filepath x).printed, st.written ++ [resolve filepath]⟩ := by
  simp only [updateFile, FileTree.readText, if_neg ho.1, hx, if_neg ho.2]

/-- The body of `for path in files`, for a file `path` listed under `root`. -/
def walkFile (root : String) (st : Proc) (path : String) : Run Proc :=
  if lastFive path = ".json" then
    updateFile { st with out := st.out ++ ["Processing file: " ++ pathJoin root path] }
      (pathJoin root path)
  else .ok st

/-- The body of `for filepath in sys.argv[1:]`. -/
def processArg (st : Proc) (filepath : String) : Run Proc :=
  if st.tree.isFile filepath ∧ lastFive filepath = ".json" then updateFile st filepath
  else if st.tree.isDir filepath then
    (walk st.tree filepath).foldlM (fun st d => d.2.foldlM (walkFile d.1) st) st
  else .ok { st with out := st.out ++ [filepath ++ " is not a valid json file or directory."] }

/-- The usage text printed when no argument was processed. -/
def usage : List String := [
  "Usage: %s <path-to-directory>]+",
  "Converts files from ",
  "   <path-to-driver>    :  relative or absolute path to a directory with .json or pom.xml " ++
    "files to convert"]

/-- The whole run of the script on the arguments `sys.argv[1:]`; `args_processed` counts the
arguments, so the usage text follows exactly when there are none. -/
def main (args : List String) (t : FileTree) : Run Proc := do
  let st ← args.foldlM processArg ⟨t, [], []⟩
  pure { st with out := st.out ++ if args.length = 0 then usage else [] }

/-! ## What every run keeps

As for the Java/POM tool, a fact about the state a run ends in is proved once for one rewrite,
at the path strings the script rewrites (those ending in `.json`), and carried through the
loops by `ends_main`. -/

section Runs

variable {I : Proc → Prop}
  (hupd : ∀ (st : Proc) (s : String), I st → ".json".toList <:+ s.toList →
    Ends I id (updateFile st s))
  (hout : ∀ (st : Proc) (out : List String), I st → I { st with out := out })
include hupd hout

theorem ends_walkFile (root : String) {st : Proc} (hst : I st) (path : String) :
    Ends I id (walkFile root st path) := by
  unfold walkFile
  split
  · next hj =>
    exact hupd _ _ (hout _ _ hst)
      ((Cli.suffix_of_lastFive hj).trans (Cli.suffix_pathJoin root path))
  · exact hst

theorem ends_processArg {st : Proc} (hst : I st) (filepath : String) :
    Ends I id (processArg st filepath) := by
  unfold processArg
  split
  · next hj => exact hupd _ _ hst (Cli.suffix_of_lastFive hj.2)
  · split
    · exact ends_foldlM (fun st d h => ends_foldlM (fun st' x h' =>
        ends_walkFile hupd hout d.1 h' x) d.2 st h) _ st hst
    · exact hout _ _ hst

theorem ends_main (args : List String) (t : FileTree) (hinit : I ⟨t, [], []⟩) :
    Ends I id (main args t) :=
  ends_bind id (ends_foldlM (fun _ x h => ends_processArg hupd hout h x) args _ hinit)
    fun _ h => hout _ _ h

end Runs

theorem keeps_updateFile {t : FileTree} {st : Proc} (hst : Keeps t st) (filepath : String) :
    Ends (Keeps t) id (updateFile st filepath) := by
  rcases updateFile_cases st filepath with ⟨out, h⟩ | ⟨x, hx, h⟩ <;> rw [h]
  · exact hst.with_out out
  · exact hst.write hx _ _

/-- Every run of the capability tool, finished or stopped on an error, creates and deletes no
file or directory, and every path it has written is a file of the tree it started from. -/
theorem run_keeps_files (args : List String) (t : FileTree) : Ends (Keeps t) id (main args t) :=
  ends_main (fun _ s h _ => keeps_updateFile h s) (fun _ out h => h.with_out out) args t
    (Cli.keeps_init t)

/-- Every path a run has written, finished or stopped on an error, ends in a component whose
name ends in `.json`. -/
theorem run_writes_json (args : List String) (t : FileTree) :
    Ends (fun st => ∀ w ∈ st.written, ∃ u, w.getLast? = some (String.mk (u ++ ".json".toList)))
      id (main args t) := by
  refine ends_main (fun st s hst hs => ?_) (fun _ _ h => h) args t (by simp)
  rcases updateFile_cases st s with ⟨out, h⟩ | ⟨x, -, h⟩ <;> rw [h]
  · exact hst
  · intro w hw
    rcases List.mem_append.mp hw with hw | hw
    · exact hst w hw
    · rw [List.mem_singleton.mp hw]
      exact Cli.getLast?_resolve_of_suffix (by decide) (by decide) (by decide) hs

/-- Every run of the capability tool, finished or stopped on an error, leaves each file holding
its contents put through `update_appium_capabilities` once for each time the run wrote it: each
rewrite reads what the one before it wrote, so no update is lost, whatever the arguments and
however often they name a file. -/
theorem run_iterated (args : List String) (t : FileTree) (name : String) :
    Ends (Cli.Iterated t fun _ x => (updateAppiumCapabilities name x).contents) id
      (main args t) := by
  refine ends_main (fun st s hst _ => ?_) (fun _ _ h => h) args t Cli.iterated_init
  rcases updateFile_cases st s with ⟨out, h⟩ | ⟨x, hx, h⟩ <;> rw [h]
  · exact hst
  · rw [updateAppiumCapabilities_contents_congr s name x]
    exact hst.write hx _

/-! ## A directory argument

On a plain tree the walk of a directory lists each file below it once, under a path string
that names the file (`Cli.walkFiles_resolve`, `Cli.nodup_walkFiles`).  Each `.json` file of the
list is read before any rewrite has touched it, so the loop rewrites each once
(`Rewritten.foldlM_walkFile`). -/

/-- The files a directory argument `top` rewrites: the `.json` files below the directory. -/
def JsonBelow (top : String) (q : List String) : Prop :=
  resolve top <+: q.dropLast ∧ lastFive (q.getLastD "") = ".json"

instance (top : String) (q : List String) : Decidable (JsonBelow top q) :=
  inferInstanceAs (Decidable (_ ∧ _))

/-- The state once the files of `V` have been rewritten, in order, and no other file; a
rewrite is named `name`, which changes nothing in the text it writes. -/
structure Rewritten (t : FileTree) (name : String) (V : List (List String)) (st : Proc) :
    Prop where
  written : st.written = V
  read : ∀ q, st.tree.read q = (t.read q).map fun x =>
    if q ∈ V then (updateAppiumCapabilities name x).contents else x
  unreadable : st.tree.unreadable = t.unreadable
  readOnly : st.tree.readOnly = t.readOnly

theorem Rewritten.with_out {t : FileTree} {name : String} {V : List (List String)} {st : Proc}
    (h : Rewritten t name V st) (out : List String) : Rewritten t name V { st with out := out } :=
  ⟨h.written, h.read, h.unreadable, h.readOnly⟩

section Directory

variable {t : FileTree} (name : String)

/-- Rewriting a file of the tree that opens and has not been rewritten yet. -/
theorem Rewritten.updateFile {V : List (List String)} {st : Proc} (h : Rewritten t name V st)
    {s : String} (hs : resolve s ∈ t.files.map Prod.fst) (ho : t.Opens (resolve s))
    (hV : resolve s ∉ V) :
    ∃ st', updateFile st s = .ok st' ∧ Rewritten t name (V ++ [resolve s]) st' := by
  obtain ⟨x, hx⟩ := Cli.read_of_isFile ((Cli.FileTree.isFile_iff t s).mpr hs)
  have hread : st.tree.read (resolve s) = some x := by
    rw [h.read, hx]
    simp [hV]
  have ho' : st.tree.Opens (resolve s) := by
    rw [FileTree.Opens, h.unreadable, h.readOnly]
    exact ho
  refine ⟨_, updateFile_of_opens st hread ho', ⟨by rw [← h.written], fun q => ?_,
    h.unreadable, h.readOnly⟩⟩
  rw [Cli.FileTree.read_write, h.read]
  split
  · next hq =>
    subst hq
    simp [hx, updateAppiumCapabilities_contents_congr s name]
  · next hq => simp [Ne.symm hq]

/-- A loop over files of the tree, each listed once and none rewritten yet, whose `.json`
files open, rewrites the `.json` ones in order. -/
theorem Rewritten.foldlM_walkFile : ∀ (vs : List (String × String)) {V : List (List String)}
    {st : Proc}, Rewritten t name V st →
    (∀ v ∈ vs, resolve (pathJoin v.1 v.2) ∈ t.files.map Prod.fst ∧
      resolve (pathJoin v.1 v.2) ∉ V) →
    (∀ v ∈ vs, lastFive v.2 = ".json" → t.Opens (resolve (pathJoin v.1 v.2))) →
    (vs.map fun v => resolve (pathJoin v.1 v.2)).Nodup →
    ∃ st', vs.foldlM (fun st v => walkFile v.1 st v.2) st = .ok st' ∧
      Rewritten t name (V ++ ((vs.filter fun v => lastFive v.2 = ".json").map
        fun v => resolve (pathJoin v.1 v.2))) st'
  | [], _, st, h, _, _, _ => ⟨st, rfl, by simpa using h⟩
  | v :: vs, V, st, h, hv, ho, hnd => by
    rw [List.map_cons, List.nodup_cons] at hnd
    simp only [List.foldlM_cons]
    by_cases hj : lastFive v.2 = ".json"
    · obtain ⟨st1, h1, hr1⟩ := Rewritten.updateFile name
        (h.with_out (st.out ++ ["Processing file: " ++ pathJoin v.1 v.2]))
        (hv v (.head _)).1 (ho v (.head _) hj) (hv v (.head _)).2
      have hv' : ∀ w ∈ vs, resolve (pathJoin w.1 w.2) ∈ t.files.map Prod.fst ∧
          resolve (pathJoin w.1 w.2) ∉ V ++ [resolve (pathJoin v.1 v.2)] :=
        fun w hw => ⟨(hv w (.tail _ hw)).1, fun hmem => (List.mem_append.mp hmem).elim
          (hv w (.tail _ hw)).2 fun he => hnd.1 (List.mem_singleton.mp he ▸ List.mem_map_of_mem _ hw)⟩
      obtain ⟨st', h', hr'⟩ := Rewritten.foldlM_walkFile vs hr1 hv' (fun w hw => ho w (.tail _ hw))
        hnd.2
      refine ⟨st', ?_, by simpa [List.filter_cons, hj] using hr'⟩
      rw [walkFile, if_pos hj, h1]
      exact h'
    · obtain ⟨st', h', hr'⟩ :=
        Rewritten.foldlM_walkFile vs h (fun w hw => hv w (.tail _ hw)) (fun w hw => ho w (.tail _ hw))
          hnd.2
      refine ⟨st', ?_, by simpa [List.filter_cons, hj] using hr'⟩
      rw [walkFile, if_neg hj]
      exact h'

/-- The `.json` files the walk lists are the `.json` files below the directory. -/
theorem mem_walkFiles_json (ht : t.Plain) (top : String) (q : List String) :
    q ∈ ((Cli.walkFiles t top).filter fun v => lastFive v.2 = ".json").map
        (fun v => resolve (pathJoin v.1 v.2)) ↔
      q ∈ t.files.map Prod.fst ∧ JsonBelow top q :=
  Cli.mem_walkFiles_lastFive ht top ".json" q

end Directory

/-- A working directory holding a directory `caps` with one capability file and one other
file. -/
def capsTree : FileTree :=
  ⟨[(["caps", "a.json"], "\"app\": 1".toList), (["caps", "notes.txt"], [])], [[], ["caps"]],
    [], [], by decide, by decide, by decide⟩

/-- A path string ending in `.json` names a file whose name ends in `.json`. -/
theorem lastFive_getLastD_resolve {s : String} (h : lastFive s = ".json") :
    lastFive ((resolve s).getLastD "") = ".json" := by
  obtain ⟨u, hu⟩ := Cli.getLast?_resolve_of_suffix (by decide) (by decide) (by decide)
    (Cli.suffix_of_lastFive h)
  rw [List.getLastD_eq_getLast?, hu, Option.getD_some, lastFive]
  simp

section Finish

variable {t : FileTree} {st : Proc}
  (hopen : ∀ g ∈ t.files, lastFive (g.1.getLastD "") = ".json" → t.Opens g.1)

theorem updateFile_ok (hst : Keeps t st) {s : String} (hs : resolve s ∈ t.files.map Prod.fst)
    (ho : t.Opens (resolve s)) : ∃ st', updateFile st s = .ok st' ∧ Keeps t st' := by
  obtain ⟨x, hx⟩ := Option.isSome_iff_exists.mp (hst.isSome_read hs)
  exact ⟨_, updateFile_of_opens st hx (hst.opens ho), hst.write hx _ _⟩

include hopen

theorem opens_of_json {s : String} (hs : resolve s ∈ t.files.map Prod.fst)
    (hj : lastFive ((resolve s).getLastD "") = ".json") : t.Opens (resolve s) := by
  obtain ⟨g, hg, he⟩ := List.mem_map.mp hs
  exact he ▸ hopen g hg (he ▸ hj)

theorem walkFile_ok (ht : t.Plain) (hst : Keeps t st) {top root path : String}
    (hv : (root, path) ∈ Cli.walkFiles t top) :
    ∃ st', walkFile root st path = .ok st' ∧ Keeps t st' := by
  obtain ⟨g, hg, he, -, hname⟩ := Cli.mem_walkFiles ht hv
  have hs : resolve (pathJoin root path) ∈ t.files.map Prod.fst := List.mem_map.mpr ⟨g, hg, he⟩
  unfold walkFile
  split
  · next hj =>
    exact updateFile_ok (hst.with_out _) hs
      (opens_of_json hopen hs (by rw [← he, hname]; exact hj))
  · exact ⟨st, rfl, hst⟩

theorem processArg_ok (ht : t.Plain) (hst : Keeps t st) (filepath : String) :
    ∃ st', processArg st filepath = .ok st' ∧ Keeps t st' := by
  unfold processArg
  split
  · next h =>
    have hs := (Cli.FileTree.isFile_iff t _).mp (hst.isFile_eq _ ▸ h.1)
    exact updateFile_ok hst hs (opens_of_json hopen hs (lastFive_getLastD_resolve h.2))
  · split
    · rw [hst.walk_eq, Cli.foldlM_walk]
      exact Cli.ok_foldlM _ st (fun st' v hv h' => walkFile_ok hopen ht h' hv) hst
    · exact ⟨_, rfl, hst.with_out _⟩

end Finish

/-- On a plain tree whose `.json` files can all be read and written, every run of the
capability tool finishes, whatever its arguments: it reads only files it has found, and its
rewrites create and delete none. -/
theorem main_finishes {t : FileTree} (ht : t.Plain)
    (hopen : ∀ g ∈ t.files, lastFive (g.1.getLastD "") = ".json" → t.Opens g.1)
    (args : List String) : ∃ p, main args t = .ok p := by
  obtain ⟨st, hst, -⟩ := Cli.ok_foldlM args _ (fun _ a _ h => processArg_ok hopen ht h a)
    (Cli.keeps_init t)
  exact ⟨_, by rw [main, hst]; rfl⟩

/-- A working directory holding a directory `caps` with one capability file. -/
def capsOnly : FileTree :=
  ⟨[(["caps", "a.json"], "\"app\": 1".toList)], [[], ["caps"]], [], [],
    by decide, by decide, by decide⟩

set_option maxRecDepth 100000 in
/-- The directory `caps` and an argument that names nothing. -/
theorem main_finishes_caps :
    capsOnly.Plain ∧
      (∀ g ∈ capsOnly.files, lastFive (g.1.getLastD "") = ".json" → capsOnly.Opens g.1) ∧
      ∃ p, main ["caps", "missing.json"] capsOnly = .ok p :=
  ⟨by decide, by decide, main_finishes (by decide) (by decide) ["caps", "missing.json"]⟩

end SdkMigration.Appium
