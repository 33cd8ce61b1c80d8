/-
A tree of files, directories and symbolic links, and where paths lead
in it.

# Walking

A path is walked segment by segment (`walk`). Every segment but the last
must name a directory; `.` stays and `..` goes to the directory above in
the tree itself, whatever the path was spelled like. A link is replaced
by its target, and one walk follows at most forty links. So the walk
ends: each step uses up a link or a segment.

A name of more than 255 bytes is refused where it is looked up, and a
path of more than 4095 bytes at once. Both are errors of the system, not
answers: whether such a file exists is not known. Everything else that
can go wrong on the way (nothing there, a file where a directory should
be, too many links, a NUL in the path) means that there is no such file;
only a file that is to be saved there makes a difference of it.

# Changing

Entries are replaced at the place where a walk ended, so writing through
a link changes what the link leads to.
-/
import ModuleAtlas.Path
import ModuleAtlas.Text.Quoted

namespace ModuleAtlas

abbrev Bytes := List UInt8

/-- What a name in a directory stands for. -/
inductive Entry where
  | file (content : Bytes)
  | link (target : String)
  | dir (entries : List (String × Entry))

-- =============================================================== errors

/-- An operation that the system refuses. -/
inductive SystemError where
  | missing (path : String)
  | notDirectory (path : String)
  | isDirectory (path : String)
  | nameTooLong (path : String)
  | tooManyLinks (path : String)
  deriving Repr, DecidableEq

def SystemError.message : SystemError → String
  | missing path => "[Errno 2] No such file or directory: " ++ Text.quoted path
  | notDirectory path => "[Errno 20] Not a directory: " ++ Text.quoted path
  | isDirectory path => "[Errno 21] Is a directory: " ++ Text.quoted path
  | nameTooLong path => "[Errno 36] File name too long: " ++ Text.quoted path
  | tooManyLinks path => "[Errno 40] Too many levels of symbolic links: " ++ Text.quoted path

-- ============================================================== walking

namespace FileTree

/-- Why a walk did not reach its end. -/
inductive Halt where
  | nothing
  | notDirectory
  | tooManyLinks
  | nameTooLong
  deriving Repr, DecidableEq

/-- Where a walk ended: the names and entries on the way down to it, the
last one first. If only the last name of the path was missing, it is
kept. -/
structure Spot where
  trail : List (String × Entry)
  absent : Option String

/-- The bytes that a file name may have. -/
def maxNameBytes : Nat := 255

/-- The bytes that a path may have. -/
def maxPathBytes : Nat := 4095

/-- The links that one walk may follow. -/
def maxLinks : Nat := 40

/-- The entry at the end of a trail that starts in `top`. -/
def entryAt (top : Entry) : List (String × Entry) → Entry
  | [] => top
  | (_, e) :: _ => e

/-- Follows the segments from the end of the trail. -/
def walk (top : Entry) (links : Nat) (trail : List (String × Entry)) (todo : List String) :
    Except Halt Spot :=
  match todo with
  | [] => .ok ⟨trail, none⟩
  | s :: rest =>
    match entryAt top trail with
    | .dir entries =>
      if s = "" ∨ s = "." then walk top links trail rest
      else if s = ".." then walk top links trail.tail rest
      else if maxNameBytes < s.utf8ByteSize then .error .nameTooLong
      else
        match entries.lookup s with
        | none => if rest.isEmpty then .ok ⟨trail, some s⟩ else .error .nothing
        | some (.link target) =>
          match links with
          | 0 => .error .tooManyLinks
          | links + 1 =>
            walk top links (if Path.isAbsolute target then [] else trail)
              (Path.segments target ++ rest)
        | some e => walk top links ((s, e) :: trail) rest
    | _ => .error .notDirectory
termination_by (links, todo.length)

end FileTree

/-- The tree below the root, and the directory that relative paths start
from. -/
structure FileTree where
  top : Entry
  here : String

namespace FileTree

variable (t : FileTree)

/-- The end of the walk along a path. -/
def spot (path : String) : Except Halt Spot :=
  if path = "" ∨ path.toList.contains '\x00' then .error .nothing
  else if maxPathBytes < path.utf8ByteSize then .error .nameTooLong
  else walk t.top maxLinks [] (Path.segments (Path.join t.here path))

/-- What a path leads to, if it leads anywhere. -/
def look (path : String) : Except SystemError (Option Entry) :=
  match t.spot path with
  | .ok ⟨trail, none⟩ => .ok (some (entryAt t.top trail))
  | .ok ⟨_, some _⟩ => .ok none
  | .error .nameTooLong => .error (.nameTooLong path)
  | .error _ => .ok none

/-- Whether a path leads to a file. -/
def isFile (path : String) : Except SystemError Bool := do
  match ← t.look path with
  | some (.file _) => return true
  | _ => return false

/-- Whether a path is known to lead to something. -/
def leadsSomewhere (path : String) : Bool :=
  match t.look path with
  | .ok (some _) => true
  | _ => false

/-- The content of the file that a path leads to. -/
def read (path : String) : Except SystemError Bytes := do
  match ← t.look path with
  | some (.file content) => return content
  | some _ => throw (.isDirectory path)
  | none => throw (.missing path)

-- ============================================================= changing

/-- The entries with `name` standing for `e`. -/
def putEntry (name : String) (e : Entry) : List (String × Entry) → List (String × Entry)
  | [] => [(name, e)]
  | (n, old) :: rest => if n = name then (n, e) :: rest else (n, old) :: putEntry name e rest

/-- The tree `e` with `new` at the end of the names `place`, which lead
down through directories; missing ones are made. -/
def putAt (new : Entry) : (place : List String) → Entry → Entry
  | [], _ => new
  | name :: place, .dir entries =>
    .dir (putEntry name (putAt new place ((entries.lookup name).getD (.dir []))) entries)
  | _, e => e

/-- The tree `e` without the entry at the end of the names `place`. -/
def dropAt : (place : List String) → Entry → Entry
  | [name], .dir entries => .dir (entries.filter (·.1 != name))
  | name :: place, .dir entries =>
    match entries.lookup name with
    | some inner => .dir (putEntry name (dropAt place inner) entries)
    | none => .dir entries
  | _, e => e

/-- The names from the root down to where a walk ended. -/
def Spot.place (s : Spot) : List String :=
  (s.trail.map Prod.fst).reverse ++ s.absent.toList

/-- The tree with `e` at the place that a path leads to, if the directory
of that place exists. -/
def put (path : String) (e : Entry) : FileTree :=
  match t.spot path with
  | .ok s => { t with top := putAt e s.place t.top }
  | .error _ => t

/-- The tree with a directory at the path and at every path above it. -/
def makeDirectories (path : String) : FileTree :=
  let segments := Path.segments (Path.join t.here path)
  (List.range segments.length).foldl (fun t n =>
    let above := "/" ++ Path.write 0 (segments.take (n + 1))
    if t.leadsSomewhere above then t else t.put above (.dir [])) t

/-- The tree with a file of this content at the path. -/
def write (path : String) (content : Bytes) : FileTree :=
  t.put path (.file content)

/-- The tree with a file of this content at the path, unless no file can
be there. -/
def save (path : String) (content : Bytes) : Except SystemError FileTree :=
  match t.spot path with
  | .ok ⟨trail, none⟩ =>
    match entryAt t.top trail with
    | .dir _ => .error (.isDirectory path)
    | _ => .ok (t.write path content)
  | .ok _ => .ok (t.write path content)
  | .error .nothing => .error (.missing path)
  | .error .notDirectory => .error (.notDirectory path)
  | .error .tooManyLinks => .error (.tooManyLinks path)
  | .error .nameTooLong => .error (.nameTooLong path)

/-- The place of the name itself: the last name of the path in the
directory that the rest leads to, a link there not followed. -/
def ownPlace? (path : String) : Option (List String) :=
  let path := Path.join t.here path
  match t.spot (Path.directory path) with
  | .ok ⟨trail, none⟩ => some ((trail.map Prod.fst).reverse ++ [Path.lastName path])
  | _ => none

/-- The tree with a link at the path. -/
def makeLink (path target : String) : FileTree :=
  match t.ownPlace? path with
  | some place => { t with top := putAt (.link target) place t.top }
  | none => t

/-- The tree without what the path names. -/
def remove (path : String) : Except SystemError FileTree :=
  match t.ownPlace? path with
  | none => .error (.missing path)
  | some place =>
    match t.spot (Path.directory (Path.join t.here path)) with
    | .ok ⟨trail, none⟩ =>
      match entryAt t.top trail with
      | .dir entries =>
        if (entries.lookup (Path.lastName path)).isSome then
          .ok { t with top := dropAt place t.top }
        else .error (.missing path)
      | _ => .error (.missing path)
    | _ => .error (.missing path)

end FileTree

end ModuleAtlas
