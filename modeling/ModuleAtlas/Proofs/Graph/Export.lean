/-
The graph is read back from its JSON text.

The text holds no number with a fraction, so in every layout it is read
as the value that was written (`Graph.whole_toJson`). What that value
lists determines the nodes with their numbers, the edges and the cycles,
since no two kinds of edge have one label. It does not determine all of
the graph: the path that a node carries besides its key, the source under
which an edge is filed, and the dependents are not written.
-/
import ModuleAtlas.Graph.Export
import ModuleAtlas.Proofs.Json.RoundTrip

namespace ModuleAtlas

open Json (IsAscii Layout Whole)

-- ================================================================ whole

theorem Json.whole_arr_map {α : Type} {f : α → Json} {l : List α} (h : ∀ a ∈ l, Whole (f a)) :
    Whole (.arr (l.map f)) :=
  .arr (List.forall_mem_map.2 h)

theorem Edge.whole_toJson (e : Edge) : Whole e.toJson :=
  .obj (by simp [Whole.str])

theorem Node.whole_toJson (key : String) (n : Node) : Whole (n.toJson key) :=
  .obj (by simp [Whole.str, Whole.int])

theorem Cycle.whole_toJson (c : Cycle) : Whole c.toJson := by
  have hnodes : Whole (.arr (c.nodes.map .str)) := Json.whole_arr_map fun v _ => .str v
  have hedges : Whole (.arr (c.edges.map Edge.toJson)) :=
    Json.whole_arr_map fun e _ => e.whole_toJson
  exact .obj (by simp [hnodes, hedges])

/-- Every number in the export is a whole one. -/
theorem Graph.whole_toJson (g : Graph) : Whole g.toJson := by
  refine .obj (List.forall_mem_cons.2 ⟨?_, List.forall_mem_cons.2 ⟨?_, List.forall_mem_cons.2
    ⟨?_, List.forall_mem_nil _⟩⟩⟩)
  · exact Json.whole_arr_map fun entry _ => entry.2.whole_toJson entry.1
  · exact Json.whole_arr_map fun e _ => e.whole_toJson
  · exact Json.whole_arr_map fun c _ => c.whole_toJson

-- ========================================================== determined

theorem EdgeKind.label_inj : ∀ {k k' : EdgeKind}, k.label = k'.label → k = k'
  | .importing, .importing, _ | .exporting, .exporting, _ | .reExporting, .reExporting, _ => rfl
  | .importing, .exporting, h | .importing, .reExporting, h | .exporting, .importing, h
  | .exporting, .reExporting, h | .reExporting, .importing, h | .reExporting, .exporting, h =>
    absurd h (by decide)

theorem Edge.toJson_inj {e e' : Edge} (h : e.toJson = e'.toJson) : e = e' := by
  obtain ⟨source, target, kind⟩ := e
  obtain ⟨source', target', kind'⟩ := e'
  simp only [Edge.toJson, Json.obj.injEq, List.cons.injEq, Prod.mk.injEq, Json.str.injEq,
    true_and, and_true] at h
  obtain ⟨rfl, rfl, hlabel⟩ := h
  rw [EdgeKind.label_inj hlabel]

theorem Cycle.toJson_inj {c c' : Cycle} (h : c.toJson = c'.toJson) : c = c' := by
  obtain ⟨nodes, edges⟩ := c
  obtain ⟨nodes', edges'⟩ := c'
  simp only [Cycle.toJson, Json.obj.injEq, List.cons.injEq, Prod.mk.injEq, Json.arr.injEq,
    true_and, and_true] at h
  rw [(List.map_inj_right fun _ _ => Json.str.inj).1 h.1,
    (List.map_inj_right fun _ _ => Edge.toJson_inj).1 h.2]

namespace Graph

/-- The nodes with what is said of each of them. -/
def listedNodes (g : Graph) : List (String × Nat × Nat) :=
  g.nodes.entries.map fun (key, n) => (key, n.imports, n.exports)

/-- The nodes as they are listed. -/
theorem map_toJson_nodes (g : Graph) :
    (g.nodes.entries.map fun (key, n) => n.toJson key) =
      g.listedNodes.map fun (key, imports, exports) =>
        .obj [("path", .str key), ("imports", .int imports), ("exports", .int exports)] := by
  rw [listedNodes, List.map_map]
  rfl

/-- One value lists the nodes, edges and cycles of one graph. -/
theorem toJson_inj {g g' : Graph} (h : g.toJson = g'.toJson) :
    g.listedNodes = g'.listedNodes ∧ g.allEdges = g'.allEdges ∧ g.cycles = g'.cycles := by
  simp only [toJson, map_toJson_nodes, Json.obj.injEq, List.cons.injEq, Prod.mk.injEq,
    Json.arr.injEq, true_and, and_true] at h
  obtain ⟨hnodes, hedges, hcycles⟩ := h
  refine ⟨(List.map_inj_right ?_).1 hnodes, (List.map_inj_right ?_).1 hedges,
    (List.map_inj_right ?_).1 hcycles⟩
  · rintro ⟨key, imports, exports⟩ ⟨key', imports', exports'⟩ hnode
    simpa [Int.ofNat_inj] using hnode
  · exact fun _ _ => Edge.toJson_inj
  · exact fun _ _ => Cycle.toJson_inj

/-- In every layout the text is ASCII and is read back as the object that
lists the nodes, the edges and the cycles in the order of the graph. So
what is read does not depend on the layout, and graphs with one text, be
it in two layouts, have the same nodes, edges and cycles. -/
theorem export_reads_back (g : Graph) :
    (∀ layout : Layout, IsAscii (g.toJson.render layout).toList) ∧
    (∀ layout : Layout, Json.read? (g.toJson.render layout) = some (.obj [
      ("nodes", .arr (g.nodes.entries.map fun (key, n) =>
        .obj [("path", .str key), ("imports", .int n.imports), ("exports", .int n.exports)])),
      ("edges", .arr ((g.edges.entries.flatMap Prod.snd).map fun e =>
        .obj [("from", .str e.source), ("to", .str e.target), ("type", .str e.kind.label)])),
      ("cycles", .arr (g.cycles.map fun c => .obj [
        ("nodes", .arr (c.nodes.map .str)),
        ("edges", .arr (c.edges.map fun e =>
          .obj [("from", .str e.source), ("to", .str e.target),
            ("type", .str e.kind.label)]))]))])) ∧
    ∀ (layout layout' : Layout) (g' : Graph),
      g.toJson.render layout = g'.toJson.render layout' →
        (g.nodes.entries.map fun (key, n) => (key, n.imports, n.exports)) =
          (g'.nodes.entries.map fun (key, n) => (key, n.imports, n.exports)) ∧
        g.edges.entries.flatMap Prod.snd = g'.edges.entries.flatMap Prod.snd ∧
        g.cycles = g'.cycles := by
  refine ⟨g.whole_toJson.isAscii_render, ?_, ?_⟩
  · intro layout
    rw [g.whole_toJson.read?_render layout]
    rfl
  · intro layout layout' g' htext
    have hread := g.whole_toJson.read?_render layout
    rw [htext, g'.whole_toJson.read?_render layout'] at hread
    exact toJson_inj (Option.some.inj hread).symm

/-- A graph of one node, filed under a name of quotes, a line end and a
face, that carries this path. -/
def carrying (path : String) : Graph where
  nodes := ⟨[("\"\\\n😀", ⟨path, 1, 2⟩)]⟩
  edges := .empty
  dependents := .empty
  cycles := []

/-- What a node carries besides its key is not written. -/
theorem export_reads_back_carrying :
    (carrying "a").toJson.render .line = (carrying "b").toJson.render .line ∧
    ((carrying "a").nodes.entries.map fun (key, n) => (key, n.imports, n.exports)) =
      ((carrying "b").nodes.entries.map fun (key, n) => (key, n.imports, n.exports)) := by
  have htext : (carrying "a").toJson.render .line = (carrying "b").toJson.render .line := rfl
  exact ⟨htext, ((export_reads_back (carrying "a")).2.2 .line .line (carrying "b") htext).1⟩

end Graph

end ModuleAtlas
