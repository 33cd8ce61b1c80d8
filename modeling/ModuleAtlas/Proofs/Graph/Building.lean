/-
What a built graph joins.

# Submissions

Of what was handed in, a module with a path is taken as it is, and all
else is passed over (`Submission.module?_eq_some_iff`).

# Matching

A dependency means the file of exactly that path. Only where there is
none it means the first file that agrees with it up to the source
extension (`meant?`). So an edge need not lead to the file that a
dependency names: if that was not handed in, a file of a similar name
stands in for it. The files are not searched for this. Two tables are
filled with them beforehand, in which the first file of a path or of a
stem stays, and these tables answer as the search does
(`target?_ofModules`).

# From dependencies to edges

The matched dependencies of all files, one after the other, are the
links. The first pass makes a node of every file, so whatever the second
one comes to has a node, and all it does is to add the edge of each link
(`addUse_of_meant`, `foldl_addUses`). Filing the links by source keeps
their order (`edgesFrom_ofModules`), so two names are joined exactly if
they are a link, and no edge comes from anywhere else
(`mem_allEdges_ofModules`).
-/
import Mathlib.Data.Option.Basic
import ModuleAtlas.Graph.Build
import ModuleAtlas.Proofs.Graph.Cycles
import ModuleAtlas.Proofs.OrderedMap

namespace ModuleAtlas

-- ======================================================== submissions

/-- A record is taken for a module if its fields hold one with a path. -/
theorem Draft.module?_eq_some_iff {d : Draft} {m : Module} :
    d.module? = some m ↔
      d = ⟨some m.path, some m.imports, some m.exports, some m.dependencies,
        m.faults⟩ ∧ m.path ≠ "" := by
  unfold Draft.module?
  simp only [bind, pure, Option.bind_eq_some_iff, Option.guard_eq_some',
    Option.some.injEq]
  constructor
  · intro h
    obtain ⟨path, hpath, -, hne, imports, himports, exports, hexports,
      dependencies, hdependencies, rfl⟩ := h
    refine ⟨?_, hne⟩
    rw [← hpath, ← himports, ← hexports, ← hdependencies]
  · intro h
    obtain ⟨rfl, hne⟩ := h
    exact ⟨_, rfl, (), hne, _, rfl, _, rfl, _, rfl, rfl⟩

/-- What is taken from what was handed in is a module with a path, as it
is. -/
theorem Submission.module?_eq_some_iff {s : Submission} {m : Module} :
    s.module? = some m ↔ s = .module m ∧ m.path ≠ "" := by
  unfold Submission.module
  cases s with
  | malformed =>
      constructor
      · intro h
        cases h
      · intro h
        cases h.1
  | record d =>
      rw [Submission.record.injEq]
      exact Draft.module?_eq_some_iff

namespace Graph

variable {modules : List Module}

-- ============================================================ matching

/-- The one of the paths that a dependency means: itself, if it is one of
them, and otherwise the first that has its stem. -/
def meant? (paths : List String) (dependency : String) : Option String :=
  if dependency ∈ paths then some dependency
  else paths.find? fun path => SourceName.stem path == SourceName.stem dependency

/-- Under a path stands the first file of that path. -/
theorem find?_byPath (modules : List Module) (path : String) :
    (Index.ofModules modules).byPath.find? path = modules.find? (·.path = path) := by
  have hfill : (Index.ofModules modules).byPath =
      OrderedMap.fill Module.path (fun m known => known.getD m) .empty modules :=
    OrderedMap.table_foldl Index.byPath (fun _ _ => rfl) .empty modules
  rw [hfill, OrderedMap.find?_fill_first]

/-- Under a stem stands the first file of that stem. -/
theorem find?_byStem (modules : List Module) (stem : String) :
    (Index.ofModules modules).byStem.find? stem =
      modules.find? (fun m => SourceName.stem m.path = stem) := by
  have hfill : (Index.ofModules modules).byStem = OrderedMap.fill
      (fun m => SourceName.stem m.path) (fun m known => known.getD m) .empty modules :=
    OrderedMap.table_foldl Index.byStem (fun _ _ => rfl) .empty modules
  rw [hfill, OrderedMap.find?_fill_first]

/-- The tables find what a search of the files finds: an exact match decides,
and only without one the stem. -/
theorem target?_ofModules (modules : List Module) (dependency : String) :
    ((Index.ofModules modules).target? dependency).map Module.path =
      meant? (modules.map Module.path) dependency := by
  unfold Index.target? meant?
  rw [find?_byPath, find?_byStem]
  by_cases hmem : dependency ∈ modules.map Module.path
  · obtain ⟨m, hm, hpath⟩ := List.mem_map.1 hmem
    cases hfind : modules.find? (·.path = dependency) with
    | none => exact absurd hpath (by simpa using List.find?_eq_none.1 hfind m hm)
    | some first =>
        have hfirst : first.path = dependency := by simpa using List.find?_some hfind
        rw [if_pos hmem, Option.some_or, Option.map_some, hfirst]
  · have hfind : modules.find? (·.path = dependency) = none :=
      List.find?_eq_none.2 fun m hm heq =>
        hmem (List.mem_map.2 ⟨m, hm, of_decide_eq_true heq⟩)
    rw [if_neg hmem, hfind, Option.none_or, List.find?_map]
    rfl

/-- `path` stands for the file `dependency` among these paths: it is that
file or, if that is none of them, the first with its stem. -/
def StandsFor (paths : List String) (dependency path : String) : Prop :=
  (dependency ∈ paths ∧ path = dependency) ∨
    (dependency ∉ paths ∧
      IsFirst (SourceName.stem · = SourceName.stem dependency) paths path)

/-- A dependency means what stands for it among the files. -/
theorem meant?_eq_some_iff {paths : List String} {dependency path : String} :
    meant? paths dependency = some path ↔ StandsFor paths dependency path := by
  unfold meant? StandsFor
  by_cases hmem : dependency ∈ paths
  · rw [if_pos hmem]
    constructor
    · intro h
      exact .inl ⟨hmem, (Option.some.inj h).symm⟩
    · intro h
      rcases h with ⟨_, rfl⟩ | ⟨hnot, _⟩
      · rfl
      · exact absurd hmem hnot
  · rw [if_neg hmem, ← IsFirst.iff_find?]
    simp only [beq_iff_eq]
    constructor
    · intro h
      exact .inr ⟨hmem, h⟩
    · intro h
      rcases h with ⟨hin, _⟩ | ⟨_, h⟩
      · exact absurd hin hmem
      · exact h

theorem StandsFor.mem {paths : List String} {dependency path : String}
    (h : StandsFor paths dependency path) : path ∈ paths := by
  rcases h with ⟨hmem, rfl⟩ | ⟨_, hfirst⟩
  · exact hmem
  · exact hfirst.mem

-- =============================================================== links

/-- What the dependencies of a file mean, in order, with repetitions. -/
def linksOf (paths : List String) (m : Module) : List (String × String) :=
  (m.dependencies.filterMap (meant? paths)).map (m.path, ·)

/-- What the dependencies of all files mean, one file after the other. -/
def links (modules : List Module) : List (String × String) :=
  modules.flatMap (linksOf (modules.map Module.path))

/-- A link leads to what stands for a dependency of its source. -/
theorem mem_links_iff {s t : String} :
    (s, t) ∈ links modules ↔
      ∃ m ∈ modules, m.path = s ∧
        ∃ d ∈ m.dependencies, StandsFor (modules.map Module.path) d t := by
  unfold links linksOf
  simp only [← meant?_eq_some_iff]
  rw [List.mem_flatMap]
  constructor
  · intro h
    obtain ⟨m, hm, hlink⟩ := h
    obtain ⟨t', ht, heq⟩ := List.mem_map.1 hlink
    obtain ⟨rfl, rfl⟩ := Prod.mk.inj heq
    obtain ⟨d, hd, hmeant⟩ := List.mem_filterMap.1 ht
    exact ⟨m, hm, rfl, d, hd, hmeant⟩
  · intro h
    obtain ⟨m, hm, rfl, d, hd, hmeant⟩ := h
    refine ⟨m, hm, List.mem_map.2 ⟨t, ?_, rfl⟩⟩
    exact List.mem_filterMap.2 ⟨d, hd, hmeant⟩

/-- A link joins the path of a file to that of a file. -/
theorem ends_of_mem_links {s t : String} (h : (s, t) ∈ links modules) :
    s ∈ modules.map Module.path ∧ t ∈ modules.map Module.path := by
  obtain ⟨m, hm, rfl, d, -, hstands⟩ := mem_links_iff.1 h
  exact ⟨List.mem_map_of_mem hm, hstands.mem⟩

-- ============================================================== passes

/-- The edge of a link. -/
def edgeOf (link : String × String) : Edge := ⟨link.1, link.2, .importing⟩

/-- The graph with the edge of a link. -/
def addLink (g : Graph) (link : String × String) : Graph :=
  g.addEdge link.1 link.2

theorem nodes_foldl_addLink (g : Graph) (links : List (String × String)) :
    (links.foldl addLink g).nodes = g.nodes := by
  induction links generalizing g with
  | nil => rfl
  | cons link links ih => exact ih _

theorem edges_foldl_addFile (g : Graph) (modules : List Module) :
    (modules.foldl addFile g).edges = g.edges := by
  induction modules generalizing g with
  | nil => rfl
  | cons m modules ih => exact ih _

/-- Each file replaces the node at its path. -/
theorem nodes_foldl_addFile (modules : List Module) :
    (modules.foldl addFile .empty).nodes =
      OrderedMap.fill Module.path (fun m _ => nodeOf m) .empty modules :=
  OrderedMap.table_foldl Graph.nodes (fun _ _ => rfl) .empty modules

/-- Each file makes room for its dependents. -/
theorem dependents_foldl_addFile (modules : List Module) :
    (modules.foldl addFile .empty).dependents =
      OrderedMap.fill Module.path (fun _ ss => ss.getD []) .empty modules :=
  OrderedMap.table_foldl Graph.dependents (fun _ _ => rfl) .empty modules

/-- These files have nodes in the graph. -/
def Holds (g : Graph) (modules : List Module) : Prop :=
  ∀ path ∈ modules.map Module.path, path ∈ g.nodes.keys

theorem holds_foldl_addFile (modules : List Module) :
    (modules.foldl addFile .empty).Holds modules := by
  intro path hpath
  rw [nodes_foldl_addFile, OrderedMap.keys_fill_empty, List.mem_eraseDups]
  exact hpath

theorem addUse_of_not_meant {m : Module} {d : String} (g : Graph)
    (hmeant : meant? (modules.map Module.path) d = none) :
    addUse (Index.ofModules modules) m g d = g := by
  rw [← target?_ofModules, Option.map_eq_none_iff] at hmeant
  unfold addUse
  rw [hmeant]

/-- What a dependency means is a node already, so the second pass adds an
edge and never a node. -/
theorem addUse_of_meant {g : Graph} {m : Module} {d t : String} (hg : g.Holds modules)
    (hmeant : meant? (modules.map Module.path) d = some t) :
    addUse (Index.ofModules modules) m g d = addLink g (m.path, t) := by
  have hnode := hg _ (meant?_eq_some_iff.1 hmeant).mem
  rw [← target?_ofModules] at hmeant
  obtain ⟨target, htarget, rfl⟩ := Option.map_eq_some_iff.1 hmeant
  unfold addUse
  rw [htarget]
  exact if_pos (OrderedMap.contains_iff.2 (OrderedMap.mem_keys_iff.1 hnode))

/-- The dependencies of a file make its links. -/
theorem addUses_eq {g : Graph} {m : Module} (hg : g.Holds modules) :
    addUses (Index.ofModules modules) g m =
      (linksOf (modules.map Module.path) m).foldl addLink g := by
  unfold addUses linksOf
  induction m.dependencies generalizing g with
  | nil => rfl
  | cons d dependencies ih =>
      cases hmeant : meant? (modules.map Module.path) d with
      | none =>
          rw [List.filterMap_cons_none hmeant, List.foldl_cons, addUse_of_not_meant g hmeant]
          exact ih hg
      | some t =>
          rw [List.filterMap_cons_some hmeant, List.foldl_cons, addUse_of_meant hg hmeant]
          exact ih hg

/-- The second pass goes along the links. -/
theorem foldl_addUses {g : Graph} (hg : g.Holds modules) (rest : List Module) :
    rest.foldl (addUses (Index.ofModules modules)) g =
      (rest.flatMap (linksOf (modules.map Module.path))).foldl addLink g := by
  induction rest generalizing g with
  | nil => rfl
  | cons m rest ih =>
      rw [List.foldl_cons, List.flatMap_cons, List.foldl_append, addUses_eq hg]
      -- edges are added only, so the rest of the files finds all nodes as well
      refine ih fun path hpath => ?_
      rw [nodes_foldl_addLink]
      exact hg path hpath

-- ============================================================== tables

/-- The graph after both passes. -/
def joined (modules : List Module) : Graph :=
  (links modules).foldl addLink (modules.foldl addFile .empty)

theorem ofModules_eq (modules : List Module) :
    ofModules modules = { joined modules with cycles := (joined modules).findCycles } := by
  have hjoined := foldl_addUses (holds_foldl_addFile modules) modules
  unfold ofModules
  dsimp only
  rw [hjoined]
  rfl

theorem nodes_ofModules (modules : List Module) :
    (ofModules modules).nodes =
      OrderedMap.fill Module.path (fun m _ => nodeOf m) .empty modules := by
  rw [ofModules_eq, ← nodes_foldl_addFile]
  exact nodes_foldl_addLink _ _

/-- Each link files its edge under its source. -/
theorem edges_ofModules (modules : List Module) :
    (ofModules modules).edges = OrderedMap.fill Prod.fst
      (fun link es => es.getD [] ++ [edgeOf link]) .empty (links modules) := by
  have hnone : (modules.foldl addFile .empty).edges = .empty := edges_foldl_addFile ..
  rw [ofModules_eq, ← hnone]
  exact OrderedMap.table_foldl Graph.edges (fun _ _ => rfl) _ _

/-- Each file makes room for its dependents, and then each link lists its
source at its target. -/
theorem dependents_ofModules (modules : List Module) :
    (ofModules modules).dependents =
      OrderedMap.fill Prod.snd (fun link ss => addNew (ss.getD []) link.1)
        (OrderedMap.fill Module.path (fun _ ss => ss.getD []) .empty modules)
        (links modules) := by
  rw [ofModules_eq, ← dependents_foldl_addFile]
  exact OrderedMap.table_foldl Graph.dependents (fun _ _ => rfl) _ _

-- =============================================================== edges

theorem nodup_keys_edges (modules : List Module) :
    (ofModules modules).edges.keys.Nodup := by
  rw [edges_ofModules]
  exact OrderedMap.nodup_keys_fill OrderedMap.nodup_keys_empty _

/-- The edges that leave a name are those of its links, in their order. -/
theorem edgesFrom_ofModules (s : String) :
    (ofModules modules).edgesFrom s =
      ((links modules).filter (·.1 = s)).map edgeOf := by
  unfold edgesFrom
  rw [edges_ofModules, OrderedMap.find?_fill, OrderedMap.foldl_append]
  rfl

theorem mem_edgesFrom_ofModules {s : String} {e : Edge} :
    e ∈ (ofModules modules).edgesFrom s ↔
      e.source = s ∧ (s, e.target) ∈ links modules ∧ e.kind = .importing := by
  rw [edgesFrom_ofModules, List.mem_map]
  constructor
  · intro h
    obtain ⟨⟨s', t⟩, hmem, rfl⟩ := h
    obtain ⟨hlink, hs⟩ := List.mem_filter.1 hmem
    obtain rfl : s' = s := by simpa using hs
    exact ⟨rfl, hlink, rfl⟩
  · obtain ⟨s', t, kind⟩ := e
    intro h
    obtain ⟨rfl, hlink, rfl⟩ := h
    exact ⟨(s', t), List.mem_filter.2 ⟨hlink, by simp⟩, rfl⟩

/-- Two names are joined exactly if they are a link. -/
theorem links_ofModules_iff {s t : String} :
    (ofModules modules).Links s t ↔ (s, t) ∈ links modules := by
  rw [links_iff_exists_edge]
  constructor
  · intro h
    obtain ⟨e, he, rfl⟩ := h
    exact (mem_edgesFrom_ofModules.1 he).2.1
  · intro hlink
    exact ⟨edgeOf (s, t), mem_edgesFrom_ofModules.2 ⟨rfl, hlink, rfl⟩, rfl⟩

/-- Each link makes one edge. -/
theorem allEdges_perm (modules : List Module) :
    ((ofModules modules).allEdges).Perm ((links modules).map edgeOf) := by
  unfold allEdges
  rw [edges_ofModules]
  exact OrderedMap.perm_flatten_values_fill edgeOf .empty _

/-- The edges of the graph are those of the links. -/
theorem mem_allEdges_ofModules {e : Edge} :
    e ∈ (ofModules modules).allEdges ↔
      (e.source, e.target) ∈ links modules ∧ e.kind = .importing := by
  rw [(allEdges_perm modules).mem_iff, List.mem_map]
  constructor
  · intro h
    obtain ⟨link, hlink, rfl⟩ := h
    exact ⟨hlink, rfl⟩
  · obtain ⟨s, t, kind⟩ := e
    intro h
    obtain ⟨hlink, rfl⟩ := h
    exact ⟨(s, t), hlink, rfl⟩

-- ======================================================== built graphs

/-- What has a path is a usable file. -/
theorem build_map_module (h : ∀ m ∈ modules, m.path ≠ "") :
    build (modules.map Submission.module) = ofModules modules := by
  have hkept : (modules.map Submission.module).filterMap Submission.module? =
      modules := by
    rw [List.filterMap_map]
    refine (List.filterMap_congr fun m hm => ?_).trans List.filterMap_some
    exact Submission.module?_eq_some_iff.2 ⟨rfl, h m hm⟩
  unfold build
  rw [hkept]

-- ============================================================== cycles

/-- The search looks at the nodes and the edges only. -/
theorem search_congr {g g' : Graph} (hnodes : g.nodes = g'.nodes)
    (hedges : g.edges = g'.edges) : g.search = g'.search := by
  obtain ⟨nodes, edges, dependents, cycles⟩ := g
  obtain ⟨nodes', edges', dependents', cycles'⟩ := g'
  obtain rfl : nodes = nodes' := hnodes
  obtain rfl : edges = edges' := hedges
  have hrun : ∀ s : Search, s.run ⟨nodes, edges, dependents, cycles⟩ =
      s.run ⟨nodes, edges, dependents', cycles'⟩ :=
        Search.run_congr fun _ => rfl
  unfold search
  rw [hrun]
  rfl

theorem findCycles_congr {g g' : Graph} (hnodes : g.nodes = g'.nodes)
    (hedges : g.edges = g'.edges) : g.findCycles = g'.findCycles := by
  unfold findCycles loops
  rw [search_congr hnodes hedges]

/-- The cycles of a built graph are those that the search finds in it, since
it found them before they were put there. -/
theorem cycles_ofModules (modules : List Module) :
    (ofModules modules).cycles = (ofModules modules).findCycles := by
  rw [ofModules_eq]
  exact findCycles_congr rfl rfl

/-- They are the loops of the edges back along a first way. -/
theorem mem_cycles_ofModules_iff {c : Cycle} :
    c ∈ (ofModules modules).cycles ↔
      ∃ u w loop, (ofModules modules).BackLoop u w loop ∧
        c = Cycle.ofNodes loop := by
  rw [cycles_ofModules]
  exact mem_findCycles_iff

/-- The edges of a cycle of a built graph are links. -/
theorem mem_links_of_mem_cycles {c : Cycle}
    (hc : c ∈ (ofModules modules).cycles) {e : Edge} (he : e ∈ c.edges) :
    (e.source, e.target) ∈ links modules := by
  rw [cycles_ofModules] at hc
  exact links_ofModules_iff.1 (links_of_mem_edges hc he)

end Graph

end ModuleAtlas
