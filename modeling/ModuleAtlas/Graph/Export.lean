/-
The graph as JSON and as a DOT drawing.

The JSON lists nodes, edges and cycles in the order of the graph. The
drawing paints red what is on a reported cycle. In it a name stands in
quotes, and a quote or backslash inside takes a backslash, so a name can
hold anything.
-/
import ModuleAtlas.Graph.Basic
import ModuleAtlas.Json
import ModuleAtlas.Path

namespace ModuleAtlas

-- ================================================================ JSON

def Edge.toJson (e : Edge) : Json :=
  .obj [("from", .str e.source), ("to", .str e.target), ("type", .str e.kind.label)]

def Cycle.toJson (c : Cycle) : Json :=
  .obj [("nodes", .arr (c.nodes.map .str)), ("edges", .arr (c.edges.map Edge.toJson))]

def Node.toJson (key : String) (n : Node) : Json :=
  .obj [("path", .str key), ("imports", .int n.imports), ("exports", .int n.exports)]

def Graph.toJson (g : Graph) : Json :=
  .obj [
    ("nodes", .arr (g.nodes.entries.map fun (key, n) => n.toJson key)),
    ("edges", .arr (g.allEdges.map Edge.toJson)),
    ("cycles", .arr (g.cycles.map Cycle.toJson))]

-- ================================================================= DOT

namespace Dot

/-- A name as it stands inside quotes. -/
def escape (s : String) : String :=
  String.ofList (s.toList.flatMap fun c => if c = '\\' ∨ c = '"' then ['\\', c] else [c])

/-- A name in quotes. -/
def quoted (s : String) : String := "\"" ++ escape s ++ "\""

/-- What a node is labelled with: its last name, or the whole of it if
that is empty. -/
def label (path : String) : String :=
  if Path.lastName path = "" then path else Path.lastName path

/-- The line that draws a node. -/
def nodeLine (path : String) (red : Bool) : String :=
  "  " ++ quoted path ++ " [label=" ++ quoted (label path) ++
    (if red then ", fillcolor=red, style=filled" else "") ++ "];"

/-- The line that draws an edge. -/
def edgeLine (source target : String) (red : Bool) : String :=
  "  " ++ quoted source ++ " -> " ++ quoted target ++ (if red then " [color=red]" else "") ++ ";"

end Dot

namespace Graph

/-- The node is on a reported cycle. -/
def isRedNode (g : Graph) (path : String) : Bool :=
  g.cycles.any (·.nodes.contains path)

/-- The edge joins the same nodes as an edge of a reported cycle. -/
def isRedEdge (g : Graph) (e : Edge) : Bool :=
  g.cycles.any (·.edges.any fun c => c.source == e.source && c.target == e.target)

/-- The lines of the drawing. -/
def dotLines (g : Graph) : List String :=
  ["digraph dependencies \x7b", "  rankdir=LR;", "  node [shape=box];"] ++
    g.nodes.keys.map (fun path => Dot.nodeLine path (g.isRedNode path)) ++
    g.allEdges.map (fun e => Dot.edgeLine e.source e.target (g.isRedEdge e)) ++
    ["\x7d"]

/-- The drawing. -/
def toDot (g : Graph) : String :=
  "\n".intercalate g.dotLines

end Graph

end ModuleAtlas
