/-
Which names are reported to lie on a cycle.

Not every name on a cycle is on a reported one. A cycle that goes over a
name left before, through an edge that is on no first way, is not seen,
and what lies on such cycles only is missed: `detour` is a graph where
that happens. The names on the reported cycles are exactly those between
the ends of an edge back along a first way (`reported_iff`).
-/
import Mathlib
import ModuleAtlas.Proofs.Graph.Cycles

namespace ModuleAtlas.Graph

variable {g : Graph}

-- ============================================================ reported

/-- The name lies on a reported cycle. -/
def Reported (g : Graph) (v : String) : Prop :=
  ∃ c ∈ g.findCycles, v ∈ c.nodes

/-- What is reported is what lies between the ends of an edge back along
a first way. -/
theorem reported_iff {v : String} :
    g.Reported v ↔ ∃ u w loop, g.BackLoop u w loop ∧ v ∈ loop := by
  constructor
  · intro h
    obtain ⟨c, hc, hv⟩ := h
    obtain ⟨u, w, loop, hback, rfl⟩ := mem_findCycles_iff.1 hc
    exact ⟨u, w, loop, hback, hv⟩
  · intro h
    obtain ⟨u, w, loop, hback, hv⟩ := h
    exact ⟨_, hback.mem_findCycles, hv⟩

/-- A reported name lies on a cycle. The converse holds of a name exactly
if that name, should it lie on a cycle, lies between the ends of an edge
back along a first way. -/
theorem onCycle_iff_reported_iff (g : Graph) :
    (∀ v, g.Reported v → g.Reachable v ∧ g.OnCycle v) ∧
    (∀ v, g.Reported v ↔ ∃ u w front loop, g.IsFirstWay u (front ++ loop) ∧
      loop.head? = some w ∧ g.Links u w ∧ v ∈ loop) ∧
    ∀ v, (g.OnCycle v ↔ g.Reported v) ↔
      (g.OnCycle v → ∃ u w front loop, g.IsFirstWay u (front ++ loop) ∧
        loop.head? = some w ∧ g.Links u w ∧ v ∈ loop) := by
  have hexact : ∀ v, g.Reported v ↔
      ∃ u w front loop, g.IsFirstWay u (front ++ loop) ∧
        loop.head? = some w ∧ g.Links u w ∧ v ∈ loop := by
    intro v
    rw [reported_iff]
    constructor
    · intro h
      obtain ⟨u, w, loop, ⟨front, hway, hhead, hlink⟩, hv⟩ := h
      exact ⟨u, w, front, loop, hway, hhead, hlink, hv⟩
    · intro h
      obtain ⟨u, w, front, loop, hway, hhead, hlink, hv⟩ := h
      exact ⟨u, w, loop, ⟨front, hway, hhead, hlink⟩, hv⟩
  have hsound : ∀ v, g.Reported v → g.Reachable v ∧ g.OnCycle v := by
    intro v hv
    obtain ⟨u, w, loop, hback, hv⟩ := reported_iff.1 hv
    exact ⟨hback.reachable hv, loop, hback.isCycle, hv⟩
  refine ⟨hsound, hexact, fun v => ?_⟩
  rw [← hexact v]
  exact ⟨fun h => h.1, fun h => ⟨h, fun hv => (hsound v hv).2⟩⟩

/-- A ring of two names with a detour: `a` leads to `b` and to `c`, and
both lead back, `c` by way of `b`. -/
def detour : Graph where
  nodes := ⟨[("a", ⟨"a", 0, 0⟩), ("b", ⟨"b", 0, 0⟩), ("c", ⟨"c", 0, 0⟩)]⟩
  edges := ⟨[("a", [⟨"a", "b", .importing⟩, ⟨"a", "c", .importing⟩]),
    ("b", [⟨"b", "a", .importing⟩]), ("c", [⟨"c", "b", .importing⟩])]⟩
  dependents := .empty
  cycles := []

/-- A name on a cycle may be missed: when the search comes to `c`, the
way back from there was left before. -/
theorem findCycles_misses :
    ¬ ∀ (g : Graph) (v : String),
      g.Reachable v → (g.OnCycle v ↔ g.Reported v) := by
  intro h
  have hreach : detour.Reachable "c" :=
    ⟨"c", by decide, Relation.ReflTransGen.refl⟩
  have hcycle : detour.OnCycle "c" := by
    refine ⟨["a", "c", "b"], ⟨by simp, by decide, ?_, ?_⟩, by simp⟩
    · exact .cons_cons (by decide) (.cons_cons (by decide) (.singleton _))
    · intro u hu w hw
      obtain rfl : "b" = u := Option.some.inj hu
      obtain rfl : "a" = w := Option.some.inj hw
      decide
  obtain ⟨c, hc, hv⟩ := (h detour "c" hreach).1 hcycle
  have hcycles : detour.findCycles = [Cycle.ofNodes ["a", "b"]] := by cbv
  rw [hcycles, List.mem_singleton] at hc
  subst hc
  revert hv
  decide

end ModuleAtlas.Graph
