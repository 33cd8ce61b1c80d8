/-
A file tree written as a JSON object.

The member `here` is the working directory, `now` the time of day, and
`files` the entries by their paths: a text, the bytes of a file, a link
or a directory. The directories above an entry are made with it.
-/
import ModuleAtlas.FileTree
import ModuleAtlas.Json

namespace ModuleAtlas

/-- A file tree, and the time when it looked like this. -/
structure Archive where
  tree : FileTree
  now : String

namespace Archive

/-- A member of an object. -/
def member? (j : Json) (name : String) : Option Json :=
  match j with
  | .obj members => members.lookup name
  | _ => none

/-- The text of a value that is one. -/
def textOr (usual : String) : Option Json → String
  | some (.str s) => s
  | _ => usual

/-- The bytes that a list of numbers spells. -/
def bytesOf (items : List Json) : Bytes :=
  items.filterMap fun item => match item with
    | .int n => some (UInt8.ofNat n.toNat)
    | _ => none

/-- The tree with one entry more. -/
def addEntry (t : FileTree) (path : String) (content : Json) : FileTree :=
  let above := t.makeDirectories (Path.directory (Path.join t.here path))
  match content, member? content "bytes", member? content "link" with
  | .str text, _, _ => above.write path text.toUTF8.toList
  | _, some (.arr items), _ => above.write path (bytesOf items)
  | _, _, some (.str target) => above.makeLink path target
  | _, _, _ => t.makeDirectories path

/-- The archive that a JSON value spells. What is missing in it is as
usual: the root directory, no files. -/
def ofJson (j : Json) : Archive :=
  let here := textOr "/" (member? j "here")
  let start := (FileTree.mk (.dir []) "/").makeDirectories here
  let entries := match member? j "files" with
    | some (.obj members) => members
    | _ => []
  { tree := entries.foldl (fun t (path, content) => addEntry t path content)
      { start with here := here }
    now := textOr "" (member? j "now") }

end Archive

end ModuleAtlas
