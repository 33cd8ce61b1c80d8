/-
Reading one source file: from its bytes to its module.

The text is parsed in the dialect of its suffix. A tree with marks gives
the faults of the text and nothing else; a sound one gives what its
nodes say. Each import is then resolved from the place of the file, and
the files found are its dependencies, each once, in the order of the
imports.

What the parser is does not matter here (`Grammar`): any function from
bytes to trees will do.
-/
import ModuleAtlas.Failure
import ModuleAtlas.Resolve
import ModuleAtlas.Syntax.Faults
import ModuleAtlas.Syntax.Findings

namespace ModuleAtlas

/-- Makes the syntax tree of a text in a dialect. -/
abbrev Grammar := Dialect → Bytes → Syntax.Node

/-- A module, and the number of places where its text was at fault. -/
structure Reading where
  module : Module
  syntaxFaults : Nat

namespace Reading

/-- The items without repetitions, each where it came first. -/
def distinct (items : List String) : List String :=
  items.foldl (fun kept x => if x ∈ kept then kept else kept ++ [x]) []

/-- A byte that no source text holds: a control character other than
tab and the line ends. -/
def isBinary (b : UInt8) : Bool :=
  b ≤ 0x08 || b = 0x0b || b = 0x0c || (0x0e ≤ b && b ≤ 0x1f)

/-- What there is to find in a tree: its faults, if it has any, or else
what its nodes say. -/
def findings (source : Bytes) (root : Syntax.Node) : Syntax.Findings :=
  if root.hasMark then ⟨[], [], Syntax.faults source root⟩ else root.findings Syntax.Node.child? source

/-- The module of a file with this text and tree. -/
def ofTree (isFile : FileTest) (extensions : List String) (here path : String)
    (source : Bytes) (root : Syntax.Node) : Except SystemError Reading := do
  let f := findings source root
  let found ← f.imports.mapM fun i => Resolver.resolve isFile extensions here path i.source
  return {
    module := {
      path := path
      imports := f.imports
      exports := f.exports
      dependencies := distinct (found.filterMap id)
      faults := f.faults }
    syntaxFaults := if root.hasMark then f.faults.length else 0 }

/-- The dialect that the file at a path is written in. -/
def dialect (path : String) : Dialect :=
  Dialect.ofSuffix (Path.suffix (Path.lastName path))

/-- Reads the file at a path. -/
def ofFile (grammar : Grammar) (t : FileTree) (extensions : List String) (path : String) :
    Except Failure Reading := do
  let path := Path.absolute t.here path
  if !t.leadsSomewhere path then throw (.noFile path)
  let source ← (t.read path).mapError (Failure.unreadable path)
  if source.any isBinary then throw (.notText path)
  (ofTree t.isFile extensions t.here path source (grammar (dialect path) source)).mapError
    (Failure.unreadable path)

end Reading

end ModuleAtlas
