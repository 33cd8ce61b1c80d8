/-
Graphs that differ in their order only.

# What the order cannot change

Two graphs that have the same nodes and join the same names are alike
(`Alike`): one may list them in another order, or join two names over
more edges. What is said in terms of walks holds of both or of neither,
so they have the same components and the same cycles.

# What it can

Which of the cycles a search reports depends on the order. But it reports
one in each component that has any, whatever the order, so it reports in
the same components (`Alike.liesIn_findCycles_iff`), and nothing if and only if
there is nothing to report.
-/
import ModuleAtlas.Proofs.Graph.Cycles
import ModuleAtlas.Proofs.OrderedMap

namespace ModuleAtlas.Graph

/-- The graphs have the same nodes and join the same names, in whatever
order and over however many edges. -/
structure Alike (g g' : Graph) : Prop where
  nodes : ∀ v, v ∈ g.nodes.keys ↔ v ∈ g'.nodes.keys
  links : ∀ u v, g.Links u v ↔ g'.Links u v

/-- One of these cycles lies in the component of `v`. -/
def LiesIn (g : Graph) (cycles : List Cycle) (v : String) : Prop :=
  ∃ c ∈ cycles, c.nodes ≠ [] ∧ ∀ u ∈ c.nodes, g.StronglyConnected v u

variable {g g' : Graph} {u v w : String}

/-- Which names are joined does not depend on where an entry stands. -/
theorem links_iff_exists_entry (h : g.edges.keys.Nodup) :
    g.Links u v ↔ ∃ entry ∈ g.edges.entries, entry.1 = u ∧
      ∃ e ∈ entry.2, e.target = v := by
  rw [links_iff_exists_edge]
  unfold edgesFrom
  constructor
  · intro hlink
    obtain ⟨e, he, rfl⟩ := hlink
    cases hfind : g.edges.find? u with
    | none => simp [hfind] at he
    | some es =>
        rw [hfind, Option.getD_some] at he
        exact ⟨(u, es), (OrderedMap.find?_eq_some_iff h).1 hfind, rfl, e, he, rfl⟩
  · intro hentry
    obtain ⟨⟨_, es⟩, hmem, rfl, hedge⟩ := hentry
    rw [(OrderedMap.find?_eq_some_iff h).2 hmem]
    exact hedge

theorem StronglyConnected.trans (huv : g.StronglyConnected u v)
    (hvw : g.StronglyConnected v w) : g.StronglyConnected u w :=
  ⟨huv.1.trans hvw.1, hvw.2.trans huv.2⟩

namespace Alike

theorem symm (h : g.Alike g') : g'.Alike g :=
  ⟨fun v => (h.nodes v).symm, fun u v => (h.links u v).symm⟩

theorem links_eq (h : g.Alike g') : g.Links = g'.Links :=
  funext₂ fun u v => propext (h.links u v)

-- =============================================================== walks

theorem reaches_iff (h : g.Alike g') : g.Reaches u v ↔ g'.Reaches u v := by
  unfold Reaches
  rw [h.links_eq]

theorem reachable_iff (h : g.Alike g') : g.Reachable v ↔ g'.Reachable v := by
  unfold Reachable
  simp only [h.nodes, h.reaches_iff]

theorem stronglyConnected_iff (h : g.Alike g') :
    g.StronglyConnected u v ↔ g'.StronglyConnected u v := by
  unfold StronglyConnected
  rw [h.reaches_iff, h.reaches_iff]

theorem isCycle (h : g.Alike g') {nodes : List String} (hc : g.IsCycle nodes) :
    g'.IsCycle nodes := by
  obtain ⟨hne, hnodup, hjoined, hclosed⟩ := hc
  rw [h.links_eq] at hjoined
  exact ⟨hne, hnodup, hjoined, fun u hu w hw => (h.links u w).1 (hclosed u hu w hw)⟩

-- ============================================================== cycles

/-- For each cycle that is reported in the one graph, one is reported in
the same component of the other. -/
theorem exists_mem_findCycles (h : g.Alike g') {c : Cycle} (hc : c ∈ g.findCycles) :
    ∃ c' ∈ g'.findCycles, c'.nodes ≠ [] ∧
      ∀ u ∈ c.nodes, ∀ v ∈ c'.nodes, g'.StronglyConnected u v := by
  obtain ⟨_, _, loop, hback, rfl⟩ := mem_findCycles_iff.1 hc
  obtain ⟨first, hfirst⟩ := List.exists_mem_of_ne_nil loop hback.ne_nil
  have hcycle := h.isCycle hback.isCycle
  have hreach := h.reachable_iff.1 (hback.reachable hfirst)
  obtain ⟨x, _, loop', hback', hx⟩ := hcycle.exists_backLoop ⟨first, hfirst, hreach⟩
  have hx' := List.mem_of_getLast? hback'.getLast?
  exact ⟨_, hback'.mem_findCycles, hback'.ne_nil, fun u hu v hv =>
    (hcycle.stronglyConnected hu hx).trans (hback'.isCycle.stronglyConnected hx' hv)⟩

theorem findCycles_eq_nil (h : g.Alike g') (hnil : g'.findCycles = []) :
    g.findCycles = [] := by
  refine List.eq_nil_iff_forall_not_mem.2 fun c hc => ?_
  obtain ⟨c', hc', -⟩ := h.exists_mem_findCycles hc
  rw [hnil] at hc'
  cases hc'

theorem findCycles_eq_nil_iff (h : g.Alike g') :
    g.findCycles = [] ↔ g'.findCycles = [] :=
  ⟨h.symm.findCycles_eq_nil, h.findCycles_eq_nil⟩

theorem liesIn_findCycles (h : g.Alike g') (hv : g.LiesIn g.findCycles v) :
    g'.LiesIn g'.findCycles v := by
  obtain ⟨c, hc, hne, hconn⟩ := hv
  obtain ⟨u, hu⟩ := List.exists_mem_of_ne_nil _ hne
  obtain ⟨c', hc', hne', hconn'⟩ := h.exists_mem_findCycles hc
  have hvu := h.stronglyConnected_iff.1 (hconn u hu)
  exact ⟨c', hc', hne', fun w hw => hvu.trans (hconn' u hu w hw)⟩

/-- A cycle is reported in the component of a name in both graphs or in
neither. -/
theorem liesIn_findCycles_iff (h : g.Alike g') :
    g.LiesIn g.findCycles v ↔ g'.LiesIn g'.findCycles v :=
  ⟨h.liesIn_findCycles, h.symm.liesIn_findCycles⟩

end Alike

end ModuleAtlas.Graph
