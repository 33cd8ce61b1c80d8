/-
The source files below a directory.

The tree is visited in the order of names, a directory where its name
stands. A directory whose name matches one of the patterns is passed
over with everything below it; so is a link to a directory, which may
lead anywhere. A link to a file counts as that file. At most `maxDepth`
directories lie between the root and a file.

The system may refuse to tell what an entry is, also one that would be
passed over. Then there is no listing, and the refusal is the answer.
-/
import ModuleAtlas.Failure
import ModuleAtlas.Glob

namespace ModuleAtlas.Scan

/-- What is looked for: the extensions of source files, and the patterns
of directories to pass over. -/
structure Wanted where
  extensions : List String
  excluded : List String

/-- The entries of a directory by name. -/
def inOrder (entries : List (String × Entry)) : List (String × Entry) :=
  entries.mergeSort fun a b => !(b.1 < a.1)

/-- The path itself, if its suffix is one of those wanted. -/
def ifWanted (w : Wanted) (name path : String) : List String :=
  if w.extensions.contains (Path.suffix name) then [path] else []

/-- The source files that the entry `e` of the directory `dir` stands for:
itself, or what `deeper` finds in a directory. The system is asked about
every entry, since it may refuse an answer about any path. -/
def filesOf (t : FileTree) (w : Wanted)
    (deeper : String → List (String × Entry) → Except SystemError (List String))
    (dir name : String) (e : Entry) : Except SystemError (List String) := do
  let path := Path.join dir name
  match e, ← t.look path with
  | .dir inner, _ => if Glob.anyAccepts w.excluded name then return [] else deeper path inner
  | .file _, _ | .link _, some (.file _) => return ifWanted w name path
  | .link _, _ => return []

/-- The source files in the directory `dir` that holds `entries`, down
to so many levels of directories, this one counted. -/
def filesBelow (t : FileTree) (w : Wanted) :
    (levels : Nat) → (dir : String) → List (String × Entry) → Except SystemError (List String)
  | 0, _, _ => .ok []
  | levels + 1, dir, entries => do
    let found ← (inOrder entries).mapM fun (name, e) =>
      filesOf t w (filesBelow t w levels) dir name e
    return found.flatten

/-- The source files below `root`, whose path is made absolute but not
shortened: `..` in it keeps its meaning. -/
def sourceFiles (t : FileTree) (w : Wanted) (maxDepth : Int) (root : String) :
    Except Failure (List String) := do
  let path := Path.located t.here root
  match ← (t.look path).mapError Failure.system with
  | none => throw (.noDirectory path)
  | some (.dir entries) =>
    (filesBelow t w (maxDepth + 1).toNat path entries).mapError Failure.system
  | some _ => throw (.notDirectory path)

end ModuleAtlas.Scan
