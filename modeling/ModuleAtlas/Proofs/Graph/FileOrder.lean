/-
The order of the files.

# What it decides

The order in which files are handed in matters in two places. Where
several have one path, the last gives the node its numbers and all add
their edges, one behind the other. And where a dependency is no path of
a file, it means the first one of its stem. In both places the files
that compete have one stem, so a built graph depends on the order among
files of one stem only (`SameByStem`).

# What it cannot decide

Files of different stems may change places. Then the nodes and their
edges stay what they are (`find?_nodes_eq`, `find?_edges_eq`), and so do
the dependents, but for their order (`rel_find?_dependents`). The search
starts elsewhere and may report other cycles, but in the same components.
-/
import ModuleAtlas.Proofs.Graph.Alike
import ModuleAtlas.Proofs.Graph.Shape

namespace ModuleAtlas

/-- The submission is a usable file of this stem. -/
def Submission.hasStem (stem : String) (s : Submission) : Bool :=
  s.module?.any fun m => SourceName.stem m.path == stem

namespace Graph

/-- The files of each stem are the same, in the same order. -/
def SameByStem (modules modules' : List Module) : Prop :=
  ∀ stem, modules.filter (SourceName.stem ·.path = stem) =
    modules'.filter (SourceName.stem ·.path = stem)

/-- What was handed in with the same files of each stem, in the same
order, has the same usable files of each stem. -/
theorem sameByStem_filterMap {xs ys : List Submission}
    (h : ∀ stem, xs.filter (·.hasStem stem) = ys.filter (·.hasStem stem)) :
    SameByStem (xs.filterMap Submission.module?) (ys.filterMap Submission.module?) := by
  intro stem
  have hkept : ∀ zs : List Submission,
      (zs.filterMap Submission.module?).filter (SourceName.stem ·.path = stem) =
        (zs.filter (·.hasStem stem)).filterMap Submission.module? := by
    intro zs
    rw [List.filter_filterMap, List.filterMap_filter]
    refine List.filterMap_congr fun s _ => ?_
    unfold Submission.hasStem
    cases s.module? with
    | none => rfl
    | some m => by_cases hm : SourceName.stem m.path = stem <;> simp [hm]
  rw [hkept, hkept, h]

namespace SameByStem

variable {modules modules' : List Module}

-- =============================================================== files

/-- The files of a path are among those of its stem. -/
theorem filter_path_eq (h : SameByStem modules modules') (p : String) :
    modules.filter (·.path = p) = modules'.filter (·.path = p) := by
  have hpath : ∀ ms : List Module, ms.filter (·.path = p) =
      (ms.filter (SourceName.stem ·.path = SourceName.stem p)).filter (·.path = p) := by
    intro ms
    rw [List.filter_filter]
    refine List.filter_congr fun m _ => ?_
    by_cases hm : m.path = p <;> simp [hm]
  rw [hpath modules, hpath modules', h]

theorem mem_paths_iff (h : SameByStem modules modules') {p : String} :
    p ∈ modules.map Module.path ↔ p ∈ modules'.map Module.path := by
  have hmem : ∀ ms : List Module,
      p ∈ ms.map Module.path ↔ ms.filter (·.path = p) ≠ [] := by
    intro ms
    rw [List.mem_map, ne_eq, List.filter_eq_nil_iff]
    simp
  rw [hmem, hmem, h.filter_path_eq]

/-- A dependency that is no path means the first file of its stem. -/
theorem meant?_eq (h : SameByStem modules modules') :
    meant? (modules.map Module.path) = meant? (modules'.map Module.path) := by
  have hfirst : ∀ (ms : List Module) (d : String),
      (ms.map Module.path).find?
          (fun path => SourceName.stem path == SourceName.stem d) =
        ((ms.filter (SourceName.stem ·.path = SourceName.stem d)).head?).map
          Module.path := by
    intro ms d
    rw [List.find?_map, List.head?_filter]
    rfl
  funext d
  unfold meant?
  simp only [h.mem_paths_iff, hfirst, h (SourceName.stem d)]

-- ============================================================== tables

theorem find?_nodes_eq (h : SameByStem modules modules') (p : String) :
    (ofModules modules).nodes.find? p = (ofModules modules').nodes.find? p := by
  rw [find?_nodes_ofModules, find?_nodes_ofModules, h.filter_path_eq]

theorem targets_eq (h : SameByStem modules modules') (s : String) :
    (ofModules modules).targets s = (ofModules modules').targets s := by
  rw [targets_ofModules, targets_ofModules, h.filter_path_eq, h.meant?_eq]

theorem find?_edges_eq (h : SameByStem modules modules') (s : String) :
    (ofModules modules).edges.find? s = (ofModules modules').edges.find? s := by
  rw [find?_edges_ofModules, find?_edges_ofModules, h.targets_eq]

theorem alike (h : SameByStem modules modules') :
    (ofModules modules).Alike (ofModules modules') where
  nodes v := by rw [mem_keys_nodes_iff, mem_keys_nodes_iff, h.mem_paths_iff]
  links u v := by unfold Links; rw [h.targets_eq]

/-- The dependents of a name are those who lead to it, each once. -/
theorem perm_dependents (h : SameByStem modules modules') (t : String) :
    (((ofModules modules).dependents.find? t).getD []).Perm
      (((ofModules modules').dependents.find? t).getD []) := by
  have hnodup : ∀ ms, (((ofModules ms).dependents.find? t).getD []).Nodup := by
    intro ms
    rw [getD_dependents]
    exact nodup_eraseDups _
  refine (List.perm_ext_iff_of_nodup (hnodup _) (hnodup _)).2 fun s => ?_
  rw [mem_dependents_iff, mem_dependents_iff, ← links_iff_exists_edge,
    ← links_iff_exists_edge, h.alike.links]

theorem rel_find?_dependents (h : SameByStem modules modules') (t : String) :
    Option.Rel List.Perm ((ofModules modules).dependents.find? t)
      ((ofModules modules').dependents.find? t) := by
  rw [find?_dependents_ofModules modules, find?_dependents_ofModules modules']
  by_cases ht : t ∈ modules.map Module.path
  · rw [if_pos ht, if_pos (h.mem_paths_iff.1 ht)]
    exact .some (h.perm_dependents t)
  · rw [if_neg ht, if_neg fun ht' => ht (h.mem_paths_iff.2 ht')]
    exact .none

end SameByStem

-- ======================================================== built graphs

/-- A built graph does not depend on the order of what was handed in, as
long as usable files of one stem keep theirs: the nodes and the edges of
each name are the same, the dependents of each name up to their order, and
cycles are reported in the same components, if at all. The one list need
not even be a rearrangement of the other, since what is not usable plays
no part. -/
theorem build_order_free {xs ys : List Submission}
    (h : ∀ stem, xs.filter (·.hasStem stem) = ys.filter (·.hasStem stem)) :
    let g := build xs
    let g' := build ys
    (∀ p, g.nodes.find? p = g'.nodes.find? p) ∧
    (∀ s, g.edges.find? s = g'.edges.find? s) ∧
    (∀ t, Option.Rel List.Perm (g.dependents.find? t) (g'.dependents.find? t)) ∧
    (g.cycles = [] ↔ g'.cycles = []) ∧
    (∀ u v, g.StronglyConnected u v ↔ g'.StronglyConnected u v) ∧
    ∀ v, g.LiesIn g.cycles v ↔ g'.LiesIn g'.cycles v := by
  intro g g'
  have hsame := sameByStem_filterMap h
  have hcycles : g.cycles = g.findCycles := cycles_ofModules _
  have hcycles' : g'.cycles = g'.findCycles := cycles_ofModules _
  have halike : g.Alike g' := hsame.alike
  refine ⟨hsame.find?_nodes_eq, hsame.find?_edges_eq, hsame.rel_find?_dependents, ?_,
    fun u v => halike.stronglyConnected_iff, fun v => ?_⟩
  · rw [hcycles, hcycles']
    exact halike.findCycles_eq_nil_iff
  · rw [hcycles, hcycles']
    exact halike.liesIn_findCycles_iff

/-- `c` stands before `a` or behind it. Then the search starts with
another one of the two, but the edges of `a` are the same. Its dependency
means the first of the two files of the stem `/p/c`, in both orders. -/
theorem build_order_free_ring :
    let file := fun path dependencies => Submission.module ⟨path, [], [], dependencies, []⟩
    let a := file "/p/a.ts" ["/p/c.js", "/p/b"]
    let c := file "/p/c.ts" ["/p/a.ts"]
    let c' := file "/p/c.tsx" []
    let xs := [a, .malformed, c, c']
    let ys := [c, c', a, .malformed]
    (∀ stem, xs.filter (·.hasStem stem) = ys.filter (·.hasStem stem)) ∧
      (build xs).edges.find? "/p/a.ts" = (build ys).edges.find? "/p/a.ts" ∧
      (build xs).edges.find? "/p/a.ts" = some [⟨"/p/a.ts", "/p/c.ts", .importing⟩] ∧
      ((build xs).cycles = [] ↔ (build ys).cycles = []) := by
  intro file a c c' xs ys
  have hstem : ∀ stem, xs.filter (·.hasStem stem) = ys.filter (·.hasStem stem) := by
    intro stem
    have ha : a.hasStem stem = ("/p/a" == stem) := rfl
    have hc : c.hasStem stem = ("/p/c" == stem) := rfl
    have hc' : c'.hasStem stem = ("/p/c" == stem) := rfl
    have hnone : Submission.malformed.hasStem stem = false := rfl
    by_cases hfirst : "/p/a" = stem
    · subst hfirst
      simp [xs, ys, ha, hc, hc', hnone]
    · simp [xs, ys, List.filter_cons, ha, hc, hc', hnone, hfirst]
  obtain ⟨-, hedges, -, hcycles, -, -⟩ := build_order_free hstem
  exact ⟨hstem, hedges "/p/a.ts", by decide +kernel, hcycles⟩

end Graph

end ModuleAtlas
