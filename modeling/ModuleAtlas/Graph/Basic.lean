/-
The dependency graph of a set of files.

A node is a file with the numbers of its imports and exports, an edge
says that its source uses its target. `dependents` is the same relation
read backwards. Edges may name files that are no nodes: a graph is also
what somebody puts together by hand.
-/
import ModuleAtlas.OrderedMap

namespace ModuleAtlas

/-- A file of the graph. -/
structure Node where
  path : String
  imports : Nat
  exports : Nat
  deriving Repr, DecidableEq

inductive EdgeKind where
  | importing
  | exporting
  | reExporting
  deriving Repr, DecidableEq

def EdgeKind.label : EdgeKind → String
  | importing => "import"
  | exporting => "export"
  | reExporting => "re-export"

/-- The file `source` uses the file `target`. -/
structure Edge where
  source : String
  target : String
  kind : EdgeKind
  deriving Repr, DecidableEq

/-- A closed chain of edges: each leads from a node to the next one, the
last back to the first. -/
structure Cycle where
  nodes : List String
  edges : List Edge
  deriving Repr, DecidableEq

/-- The closed chain through these nodes. -/
def Cycle.ofNodes (nodes : List String) : Cycle where
  nodes := nodes
  edges := List.zipWith (fun a b => ⟨a, b, .importing⟩) nodes (nodes.tail ++ nodes.head?.toList)

/-- The pair of nodes that the last edge of the chain joins. -/
def Cycle.closing (c : Cycle) : Option (String × String) := do
  return (← c.nodes.getLast?, ← c.nodes.head?)

structure Graph where
  nodes : OrderedMap Node
  edges : OrderedMap (List Edge)
  dependents : OrderedMap (List String)
  cycles : List Cycle
  deriving Repr

namespace Graph

/-- The graph without any file. -/
def empty : Graph := ⟨.empty, .empty, .empty, []⟩

/-- The edges that leave `v`, in order. -/
def edgesFrom (g : Graph) (v : String) : List Edge :=
  (g.edges.find? v).getD []

/-- Where the edges that leave `v` lead, in order. -/
def targets (g : Graph) (v : String) : List String :=
  (g.edgesFrom v).map Edge.target

/-- All edges, those of one source together. -/
def allEdges (g : Graph) : List Edge :=
  g.edges.values.flatten

def edgeCount (g : Graph) : Nat :=
  g.allEdges.length

/-- The names of nodes and of the ends of edges. -/
def names (g : Graph) : List String :=
  g.nodes.keys ++ g.allEdges.map Edge.target

end Graph

end ModuleAtlas
