/-
The graph of a list of files.

Every file with a path is a node, under its path. A dependency leads to
the file with exactly that path or, if there is none, to the first file
whose path differs from it in the source extension only; if there is
none either, it leads out of the graph and is dropped. Entries that are
no usable files are passed over.

The files are gone through twice. First each becomes a node and enters
the tables by which it is found, of its path and of its stem
(`addFile`, `Index.add`). Then the dependencies of each are looked up in
these tables and make the edges (`addUse`).
-/
import ModuleAtlas.Dialect
import ModuleAtlas.Module
import ModuleAtlas.Graph.Search

namespace ModuleAtlas

/-- A record as it was handed in. A field may hold something of another
kind than what belongs there; it is `none` then. Nobody looks at the
faults. -/
structure Draft where
  path : Option String
  imports : Option (List Import)
  exports : Option (List Export)
  dependencies : Option (List String)
  faults : List Fault

/-- The module that the record describes: it has a path, and each field
holds what belongs there. -/
def Draft.module? (d : Draft) : Option Module := do
  let path ← d.path
  guard (path ≠ "")
  return ⟨path, ← d.imports, ← d.exports, ← d.dependencies, d.faults⟩

/-- What is handed in for one file: a record, or something that is none. -/
inductive Submission where
  | record (d : Draft)
  | malformed

/-- A module handed in as it is. -/
def Submission.module (m : Module) : Submission :=
  .record ⟨some m.path, some m.imports, some m.exports, some m.dependencies, m.faults⟩

/-- The module that was handed in, if it is one. -/
def Submission.module? : Submission → Option Module
  | record d => d.module?
  | malformed => none

namespace Graph

/-- The node of a file. -/
def nodeOf (m : Module) : Node :=
  ⟨m.path, m.imports.length, m.exports.length⟩

-- =============================================================== index

/-- The files by their paths and by their stems. -/
structure Index where
  byPath : OrderedMap Module
  byStem : OrderedMap Module

namespace Index

def empty : Index := ⟨.empty, .empty⟩

/-- Enters a file in both tables. Whatever stands under its path or under its
stem already, stays. -/
def add (index : Index) (m : Module) : Index where
  byPath := index.byPath.upsert m.path fun known => known.getD m
  byStem := index.byStem.upsert (SourceName.stem m.path) fun known => known.getD m

/-- The tables of these files. -/
def ofModules (modules : List Module) : Index := modules.foldl add .empty

/-- The file that a dependency means: the one of that path or else the one
of that stem. -/
def target? (index : Index) (dependency : String) : Option Module :=
  (index.byPath.find? dependency).or (index.byStem.find? (SourceName.stem dependency))

end Index

-- ============================================================== passes

/-- The graph with a node for this file, and room for its dependents. -/
def addFile (g : Graph) (m : Module) : Graph :=
  { g with
    nodes := g.nodes.upsert m.path fun _ => nodeOf m
    dependents := g.dependents.upsert m.path fun ss => ss.getD [] }

/-- The graph with one more edge. A source is listed once at its target. -/
def addEdge (g : Graph) (source target : String) : Graph :=
  { g with
    edges := g.edges.upsert source fun es => es.getD [] ++ [⟨source, target, .importing⟩]
    dependents := g.dependents.upsert target fun ss =>
      let ss := ss.getD []
      if source ∈ ss then ss else ss ++ [source] }

/-- The graph with the edge that a dependency of the file makes, if it means
a file. A target that is no node becomes one. -/
def addUse (index : Index) (m : Module) (g : Graph) (dependency : String) : Graph :=
  match index.target? dependency with
  | none => g
  | some target =>
    let g := g.addEdge m.path target.path
    if g.nodes.contains target.path then g
    else { g with nodes := g.nodes.upsert target.path fun _ => nodeOf target }

/-- The graph with the edges that the dependencies of the file make. -/
def addUses (index : Index) (g : Graph) (m : Module) : Graph :=
  m.dependencies.foldl (addUse index m) g

/-- The graph of these files. -/
def ofModules (modules : List Module) : Graph :=
  let index := Index.ofModules modules
  let g := modules.foldl addFile .empty
  let g := modules.foldl (addUses index) g
  { g with cycles := g.findCycles }

/-- The graph of what was handed in. -/
def build (submissions : List Submission) : Graph :=
  ofModules (submissions.filterMap Submission.module?)

end Graph

end ModuleAtlas
