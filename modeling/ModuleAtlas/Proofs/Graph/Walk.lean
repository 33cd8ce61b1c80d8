/-
Ways through a graph.

# What counts as an edge

Only the table of outgoing edges does: `u` is joined to `v` if an edge
filed under `u` has the target `v` (`Links`). Neither end need be a
node, and parallel edges join the same two names. The nodes matter as
the places where a walk may start: a name is `Reachable` if some node
leads to it.

# Walks with something to keep off

A depth-first search never goes back into the names it is in the middle
of. So what it can still find from a name is what `LeadsPast` says:
walks that keep off a list of names.
-/
import Mathlib.Data.List.Chain
import Mathlib.Logic.Relation
import ModuleAtlas.Graph.Search

namespace ModuleAtlas.Graph

open Relation

variable {g : Graph}

-- ============================================================== edges

/-- An edge leads from `u` to `v`. -/
def Links (g : Graph) (u v : String) : Prop := v ∈ g.targets u

instance (g : Graph) : DecidableRel g.Links := fun u v =>
  inferInstanceAs (Decidable (v ∈ g.targets u))

theorem links_iff_exists_edge {u v : String} :
    g.Links u v ↔ ∃ e ∈ g.edgesFrom u, e.target = v := by
  unfold Links targets
  exact List.mem_map

/-- The edges that leave a name are edges of the graph. -/
theorem mem_allEdges_of_mem_edgesFrom {u : String} {e : Edge}
    (he : e ∈ g.edgesFrom u) : e ∈ g.allEdges := by
  unfold edgesFrom at he
  cases hf : g.edges.find? u with
  | none => simp [hf] at he
  | some es =>
      rw [hf, Option.getD_some] at he
      obtain ⟨before, after, hsplit, -⟩ := List.lookup_eq_some_iff.1 hf
      have hes : es ∈ g.edges.values :=
        List.mem_map.2 ⟨(u, es), by rw [hsplit]; simp, rfl⟩
      exact List.mem_flatten.2 ⟨es, hes, he⟩

/-- Whatever an edge leads to is a name of the graph. -/
theorem Links.mem_names {u v : String} (h : g.Links u v) : v ∈ g.names := by
  obtain ⟨e, he, rfl⟩ := links_iff_exists_edge.1 h
  exact List.mem_append_right _
    (List.mem_map_of_mem (mem_allEdges_of_mem_edgesFrom he))

-- =============================================================== walks

/-- A walk leads from `u` to `v`, possibly over no edge at all. -/
def Reaches (g : Graph) (u v : String) : Prop := ReflTransGen g.Links u v

/-- Some node leads to `v`. -/
def Reachable (g : Graph) (v : String) : Prop :=
  ∃ r ∈ g.nodes.keys, g.Reaches r v

/-- Each of the two names leads to the other: they are in the same
strongly connected component. -/
def StronglyConnected (g : Graph) (u v : String) : Prop :=
  g.Reaches u v ∧ g.Reaches v u

/-- A walk over at least one edge that ends where it starts, written as
the names that it passes. -/
structure IsClosedWalk (g : Graph) (walk : List String) : Prop where
  joined : walk.IsChain g.Links
  moves : 2 ≤ walk.length
  returns : walk.head? = walk.getLast?

/-- A closed walk that passes no name twice, without the return to its
first name. -/
structure IsCycle (g : Graph) (nodes : List String) : Prop where
  nonempty : nodes ≠ []
  distinct : nodes.Nodup
  joined : nodes.IsChain g.Links
  closed : ∀ u ∈ nodes.getLast?, ∀ w ∈ nodes.head?, g.Links u w

/-- `v` lies on a cycle of the graph. -/
def OnCycle (g : Graph) (v : String) : Prop :=
  ∃ nodes, g.IsCycle nodes ∧ v ∈ nodes

theorem Reachable.trans {u v : String} (hu : g.Reachable u)
    (huv : g.Reaches u v) : g.Reachable v := by
  obtain ⟨r, hr, hru⟩ := hu
  exact ⟨r, hr, ReflTransGen.trans hru huv⟩

section Rings

variable {r : String → String → Prop} {u v : String} {walk nodes : List String}

/-- The first name of a walk leads to all of it. -/
theorem reflTransGen_of_isChain (h : (u :: walk).IsChain r)
    (hv : v ∈ u :: walk) : ReflTransGen r u v :=
  h.induction (ReflTransGen r u ·) (u :: walk)
    (fun _ _ hxy hx => ReflTransGen.tail hx hxy)
    (fun _ => ReflTransGen.refl) v hv

/-- All of a walk leads to its last name. -/
theorem reflTransGen_getLast_of_isChain (h : walk.IsChain r) (hu : u ∈ walk)
    (hv : v ∈ walk.getLast?) : ReflTransGen r u v := by
  refine h.backwards_induction (ReflTransGen r · v) walk
    (fun _ _ hxy hy => ReflTransGen.head hxy hy) (fun hne => ?_) u hu
  rw [List.getLast?_eq_some_getLast hne, Option.mem_some_iff] at hv
  rw [hv]

/-- Where each name is related to the next one and the last to the first,
each leads to each, itself included: on to the last one, from there to
the first, and on from it. -/
theorem transGen_of_ring (hjoined : nodes.IsChain r)
    (hclosed : ∀ u ∈ nodes.getLast?, ∀ w ∈ nodes.head?, r u w)
    (hu : u ∈ nodes) (hv : v ∈ nodes) : TransGen r u v := by
  cases nodes with
  | nil => cases hu
  | cons first rest =>
      have hlast := List.getLast?_eq_some_getLast (List.cons_ne_nil first rest)
      have hout := reflTransGen_getLast_of_isChain hjoined hu hlast
      have hback := hclosed _ hlast first rfl
      exact (TransGen.tail' hout hback).trans_left
        (reflTransGen_of_isChain hjoined hv)

end Rings

/-- The names of a cycle lead to each other. -/
theorem IsCycle.reaches {nodes : List String} (hc : g.IsCycle nodes)
    {u v : String} (hu : u ∈ nodes) (hv : v ∈ nodes) : g.Reaches u v :=
  (transGen_of_ring hc.joined hc.closed hu hv).to_reflTransGen

theorem IsCycle.stronglyConnected {nodes : List String} (hc : g.IsCycle nodes)
    {u v : String} (hu : u ∈ nodes) (hv : v ∈ nodes) :
    g.StronglyConnected u v :=
  ⟨hc.reaches hu hv, hc.reaches hv hu⟩

-- ================================================= walks that keep off

/-- A walk leads from `u` to `v` and touches none of the names in
`passed`. -/
inductive LeadsPast (g : Graph) (passed : List String) :
    String → String → Prop where
  | here {v : String} (hv : v ∉ passed) : LeadsPast g passed v v
  | via {u w v : String} (hu : u ∉ passed) (huw : g.Links u w)
      (hwv : LeadsPast g passed w v) : LeadsPast g passed u v

namespace LeadsPast

variable {passed passed' : List String} {u v w : String}

theorem source_not_mem (h : g.LeadsPast passed u v) : u ∉ passed := by
  cases h with
  | here hv => exact hv
  | via hu => exact hu

theorem target_not_mem (h : g.LeadsPast passed u v) : v ∉ passed := by
  induction h with
  | here hv => exact hv
  | via _ _ _ ih => exact ih

theorem trans (huv : g.LeadsPast passed u v) (hvw : g.LeadsPast passed v w) :
    g.LeadsPast passed u w := by
  induction huv with
  | here => exact hvw
  | via hu hux _ ih => exact .via hu hux (ih hvw)

/-- Keeping off more names keeps off fewer. -/
theorem mono (h : g.LeadsPast passed u v) (hsub : ∀ x ∈ passed', x ∈ passed) :
    g.LeadsPast passed' u v := by
  induction h with
  | here hv => exact .here fun hx => hv (hsub _ hx)
  | via hu hux _ ih => exact .via (fun hx => hu (hsub _ hx)) hux ih

theorem reaches (h : g.LeadsPast passed u v) : g.Reaches u v := by
  induction h with
  | here => exact ReflTransGen.refl
  | via _ hux _ ih => exact ReflTransGen.head hux ih

end LeadsPast

end ModuleAtlas.Graph
