/-
Paths: slash-separated names of places in a file tree.

# Reading and normal form

A path is its leading slashes and the segments between the others. Its
normal form (`normalize`) walks the segments once, keeping a stack: an
empty segment and `.` stay, `..` leaves the segment entered last, any
other segment is entered (`descend`). The same step, started from the
segments of a directory, is what following a relative path means, so
resolution and normal form share one definition.

Two leading slashes are a root of their own; one, or three and more,
are the root.

# What is done with a path

Everything here is about the text alone. Where a path leads in a tree
with links is `FileTree`'s business, which is why `plain` exists beside
`normalize`: it only drops what is redundant in every tree and keeps
`..`, which may leave a directory that was entered through a link.
-/
import ModuleAtlas.Text.Split

namespace ModuleAtlas.Path

-- ============================================================= reading

/-- The number of leading slashes that count: two are told apart from
one, more than two are one. -/
def lead (path : String) : Nat :=
  match path.toList with
  | '/' :: '/' :: '/' :: _ => 1
  | '/' :: '/' :: _ => 2
  | '/' :: _ => 1
  | _ => 0

/-- The texts between the slashes. -/
def segments (path : String) : List String :=
  (Text.split '/' path.toList).map String.ofList

def isAbsolute (path : String) : Bool :=
  path.toList.head? == some '/'

/-- The path with these leading slashes and segments; the empty path is
written `.`. -/
def write (lead : Nat) (segments : List String) : String :=
  let text := List.replicate lead '/' ++ Text.join '/' (segments.map String.toList)
  if text.isEmpty then "." else String.ofList text

-- ========================================================= normal form

/-- One step along a path. The stack holds the segments entered so far,
the last one first. `..` with nothing to leave stays at a root and is
kept where there is none. -/
def descend (rooted : Bool) (entered : List String) (segment : String) : List String :=
  if segment = "" ∨ segment = "." then entered
  else if segment = ".." then
    match entered with
    | [] => if rooted then [] else [".."]
    | last :: outer => if last = ".." then ".." :: entered else outer
  else segment :: entered

/-- The segments that remain after a walk from the start. -/
def collapse (rooted : Bool) (segments : List String) : List String :=
  (segments.foldl (descend rooted) []).reverse

/-- The normal form: no empty segment, no `.`, and `..` only at the
front of a relative path. -/
def normalize (path : String) : String :=
  write (lead path) (collapse (lead path != 0) (segments path))

/-- The path without its empty and `.` segments; `..` stays. -/
def plain (path : String) : String :=
  write (lead path) ((segments path).filter fun s => s != "" && s != ".")

-- ============================================================= joining

/-- The path `path` as seen from the directory `dir`. -/
def join (dir path : String) : String :=
  if isAbsolute path then path
  else if dir = "" ∨ dir.toList.getLast? = some '/' then dir ++ path
  else dir ++ "/" ++ path

/-- The absolute normal form of a path as seen from `here`. -/
def absolute (here path : String) : String :=
  normalize (join here path)

/-- The path as seen from `here`, with `..` left in place. -/
def located (here path : String) : String :=
  plain (join here path)

-- ======================================================= parts of a path

/-- The text after the last slash. -/
def lastName (path : String) : String :=
  match Text.aroundLast '/' path.toList with
  | none => path
  | some (_, name) => String.ofList name

/-- The directory part: the text before the last slash, without the
slashes it ends in unless it is made of slashes only. -/
def directory (path : String) : String :=
  match Text.aroundLast '/' path.toList with
  | none => ""
  | some (before, _) =>
    let trimmed := (before.reverse.dropWhile (· == '/')).reverse
    String.ofList (if trimmed.isEmpty then before ++ ['/'] else trimmed)

/-- The path cut before the last dot of its last segment. Dots that the
segment starts with are part of its name, so `.profile` is not cut. -/
def splitExtension (path : String) : String × String :=
  let (front, name) : List Char × List Char :=
    match Text.aroundLast '/' path.toList with
    | none => ([], path.toList)
    | some (before, after) => (before ++ ['/'], after)
  match Text.aroundLast '.' name with
  | none => (path, "")
  | some (stem, ext) =>
    if stem.all (· == '.') then (path, "")
    else (String.ofList (front ++ stem), String.ofList ('.' :: ext))

/-- The suffix of a file name: its last dot and what follows, if neither
side of the dot is empty. -/
def suffix (name : String) : String :=
  match Text.aroundLast '.' name.toList with
  | none => ""
  | some (stem, ext) =>
    if stem.isEmpty || ext.isEmpty then "" else String.ofList ('.' :: ext)

-- ======================================================= relative paths

/-- What two lists have in common at their front is dropped from both. -/
def dropCommon : List String → List String → List String × List String
  | a :: as, b :: bs => if a = b then dropCommon as bs else (a :: as, b :: bs)
  | as, bs => (as, bs)

/-- How to write `path` as seen from the directory `root`: up out of the
segments that only `root` has, then down those that only `path` has. An
empty path has no place and is written as it is. -/
def relative (here root path : String) : String :=
  if path = "" then path
  else
    let names := fun p => (segments (absolute here p)).filter (· != "")
    let (up, down) := dropCommon (names root) (names path)
    write 0 (up.map (fun _ => "..") ++ down)

end ModuleAtlas.Path
