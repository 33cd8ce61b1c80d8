/-
The red part of a drawing.

# What is red

A node is drawn red if it is on a reported cycle, and an edge if it joins
what an edge of a reported cycle joins. In any graph that needs a node or
an edge to be drawn at all. In a built graph it needs no more than the
cycle: its edges are links, and links are drawn, between nodes that are
drawn (`redEdge_iff`, `redNode_iff`).

# What it looks like

So the red part is put together of whole loops. A red edge has red ends,
and from a red node one comes back to it over red edges, around the
cycle that it is on. There is something red if and only if the graph has
a cycle, since every name of a cycle is a node and can be reached.
-/
import ModuleAtlas.Proofs.Dot.Drawing
import ModuleAtlas.Proofs.Graph.Shape

namespace ModuleAtlas

open Relation

namespace Graph

variable {modules : List Module}

/-- A cycle of a built graph goes over its nodes. -/
theorem IsCycle.mem_keys_nodes {nodes : List String}
    (hc : (ofModules modules).IsCycle nodes) {v : String} (hv : v ∈ nodes) :
    v ∈ (ofModules modules).nodes.keys := by
  obtain ⟨w, hlink, -⟩ := TransGen.head'_iff.1 (transGen_of_ring hc.joined hc.closed hv hv)
  rw [links_ofModules_iff] at hlink
  exact mem_keys_nodes_iff.2 (ends_of_mem_links hlink).1

/-- What an edge of a reported cycle joins is joined by an edge of the
graph. -/
theorem exists_edge_of_joins {c : Cycle} (hc : c ∈ (ofModules modules).cycles) {u w : String}
    (h : c.Joins u w) :
    u ∈ (ofModules modules).nodes.keys ∧ w ∈ (ofModules modules).nodes.keys ∧
      ∃ e ∈ (ofModules modules).allEdges, e.source = u ∧ e.target = w := by
  obtain ⟨e, he, rfl, rfl⟩ := h
  have hlink := mem_links_of_mem_cycles hc he
  obtain ⟨hsource, htarget⟩ := ends_of_mem_links hlink
  exact ⟨mem_keys_nodes_iff.2 hsource, mem_keys_nodes_iff.2 htarget,
    edgeOf (e.source, e.target), mem_allEdges_ofModules.2 ⟨hlink, rfl⟩, rfl, rfl⟩

/-- There is a reported cycle if and only if there is a cycle. -/
theorem exists_mem_cycles_iff :
    (∃ c ∈ (ofModules modules).cycles, c.nodes ≠ []) ↔
      ∃ nodes, (ofModules modules).IsCycle nodes := by
  constructor
  · intro h
    obtain ⟨c, hc, -⟩ := h
    obtain ⟨_, _, loop, hback, rfl⟩ := mem_cycles_ofModules_iff.1 hc
    exact ⟨loop, hback.isCycle⟩
  · intro h
    obtain ⟨nodes, hc⟩ := h
    obtain ⟨v, hv⟩ := List.exists_mem_of_ne_nil nodes hc.nonempty
    obtain ⟨u, w, loop, hback, -⟩ :=
      hc.exists_backLoop ⟨v, hv, v, hc.mem_keys_nodes hv, ReflTransGen.refl⟩
    exact ⟨_, mem_cycles_ofModules_iff.2 ⟨u, w, loop, hback, rfl⟩, hback.ne_nil⟩

end Graph

namespace Dot

-- ============================================================ red parts

/-- A node of this name is drawn red. -/
def Drawing.RedNode (d : Drawing) (v : String) : Prop :=
  ∃ label, (v, label, true) ∈ d.nodes

/-- An edge from `u` to `w` is drawn red. -/
def Drawing.RedEdge (d : Drawing) (u w : String) : Prop :=
  (u, w, true) ∈ d.edges

/-- What the drawing of a graph shows. -/
def drawingOf (g : Graph) : Drawing where
  nodes := g.nodes.keys.map fun path => (path, label path, g.isRedNode path)
  edges := g.allEdges.map fun e => (e.source, e.target, g.isRedEdge e)

variable {modules : List Module} {u v w : String}

/-- The red nodes are those of the reported cycles. -/
theorem redNode_iff :
    (drawingOf (Graph.ofModules modules)).RedNode v ↔
      ∃ c ∈ (Graph.ofModules modules).cycles, v ∈ c.nodes := by
  unfold Drawing.RedNode drawingOf
  simp only [List.mem_map, Prod.mk.injEq, isRedNode_eq, decide_eq_true_iff]
  constructor
  · intro h
    obtain ⟨_, path, -, rfl, -, hred⟩ := h
    exact hred
  · intro hred
    obtain ⟨c, hc, hv⟩ := id hred
    obtain ⟨_, _, loop, hback, rfl⟩ := Graph.mem_cycles_ofModules_iff.1 hc
    exact ⟨_, v, hback.isCycle.mem_keys_nodes hv, rfl, rfl, hred⟩

/-- The red edges join what the edges of the reported cycles join. -/
theorem redEdge_iff :
    (drawingOf (Graph.ofModules modules)).RedEdge u w ↔
      ∃ c ∈ (Graph.ofModules modules).cycles, c.Joins u w := by
  unfold Drawing.RedEdge drawingOf
  simp only [List.mem_map, Prod.mk.injEq, isRedEdge_eq, decide_eq_true_iff]
  constructor
  · intro h
    obtain ⟨e, -, rfl, rfl, hred⟩ := h
    exact hred
  · intro hred
    obtain ⟨c, hc, hjoins⟩ := id hred
    obtain ⟨-, -, e, he, rfl, rfl⟩ := Graph.exists_edge_of_joins hc hjoins
    exact ⟨e, he, rfl, rfl, hred⟩

/-- From a red node one comes back to it over red edges. -/
theorem transGen_redEdge (h : (drawingOf (Graph.ofModules modules)).RedNode v) :
    TransGen (drawingOf (Graph.ofModules modules)).RedEdge v v := by
  obtain ⟨c, hc, hv⟩ := redNode_iff.1 h
  obtain ⟨_, _, loop, -, rfl⟩ := Graph.mem_cycles_ofModules_iff.1 hc
  have hred : ∀ u w, (Cycle.ofNodes loop).Joins u w →
      (drawingOf (Graph.ofModules modules)).RedEdge u w :=
    fun _ _ hjoins => redEdge_iff.2 ⟨_, hc, hjoins⟩
  exact TransGen.mono hred v v (Cycle.transGen_joins hv hv)

/-- The red part of the drawing of a built graph is made of loops. A red
edge joins red nodes; a red edge comes to each red node and one leaves
it, and over red edges one returns to it; and something is red if and
only if the graph has a cycle. -/
theorem red_part_loops (submissions : List Submission) :
    ∃ d, read? (Graph.build submissions).toDot = some d ∧
      (∀ u w, d.RedEdge u w → d.RedNode u ∧ d.RedNode w) ∧
      (∀ v, d.RedNode v →
        (∃ u, d.RedEdge u v) ∧ (∃ w, d.RedEdge v w) ∧ TransGen d.RedEdge v v) ∧
      ((∃ v, d.RedNode v) ↔ ∃ nodes, (Graph.build submissions).IsCycle nodes) := by
  refine ⟨drawingOf _, read?_toDot _, fun u w hred => ?_, fun v hred => ?_, ?_⟩
  · obtain ⟨c, hc, hjoins⟩ := redEdge_iff.1 hred
    obtain ⟨_, _, loop, -, rfl⟩ := Graph.mem_cycles_ofModules_iff.1 hc
    obtain ⟨hu, hw⟩ := hjoins.mem_nodes
    exact ⟨redNode_iff.2 ⟨_, hc, hu⟩, redNode_iff.2 ⟨_, hc, hw⟩⟩
  · have hreturn := transGen_redEdge hred
    obtain ⟨w, hout, -⟩ := TransGen.head'_iff.1 hreturn
    obtain ⟨u, -, hin⟩ := TransGen.tail'_iff.1 hreturn
    exact ⟨⟨u, hin⟩, ⟨w, hout⟩, hreturn⟩
  · refine Iff.trans ?_ Graph.exists_mem_cycles_iff
    constructor
    · intro h
      obtain ⟨v, hred⟩ := h
      obtain ⟨c, hc, hv⟩ := redNode_iff.1 hred
      exact ⟨c, hc, List.ne_nil_of_mem hv⟩
    · intro h
      obtain ⟨c, hc, hne⟩ := h
      obtain ⟨v, hv⟩ := List.exists_mem_of_ne_nil _ hne
      exact ⟨v, redNode_iff.2 ⟨c, hc, hv⟩⟩

end Dot

end ModuleAtlas
