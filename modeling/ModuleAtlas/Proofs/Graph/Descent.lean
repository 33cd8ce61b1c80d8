/-
Lengths fall along a cycle.

# Why

The names of a reported cycle follow each other on a first way, so each
was entered from the one before it and left earlier
(`leftBefore_of_isFirstWay`). A name that was left earlier has its length
when the name that leads to it is taken, and makes that one longer
(`LeftBefore.depth_lt`). The closing edge alone goes back, and counts
nothing.

# What it comes to

A cycle of `n` names counts once, over `n - 1` edges: so long at least is
the chain that starts in its first name, and the longest chain of a
report. That holds of the lengths as they are found by a walk of their
own, since it goes the way of the search (`Measuring.ends_iff`).
-/
import ModuleAtlas.Proofs.Graph.Building
import ModuleAtlas.Proofs.Graph.Measuring

namespace ModuleAtlas.Graph

variable {g : Graph}

-- =========================================================== first ways

/-- Along a first way, each name is joined to the next one, which was
left earlier. -/
theorem leftBefore_of_isFirstWay {v : String} {way : List String}
    (h : g.IsFirstWay v way) :
    way.IsChain fun x y => g.Links x y ∧ g.LeftBefore y x := by
  rw [List.isChain_iff_forall_rel_of_append_cons_cons]
  intro x y front back hsplit
  have hlink : g.Links x y := by
    have hpair : [x, y] <:+: way := ⟨front, back, by rw [hsplit]; simp⟩
    exact List.isChain_pair.1 <| List.IsChain.infix h.isChain hpair
  have hx : g.Reachable x := h.reachable (by rw [hsplit]; simp)
  rcases leftBefore_or_loop hx hlink with hbefore | ⟨loop, -, hback⟩
  · exact ⟨hlink, hbefore⟩
  · -- otherwise the way to `x` would go over `y`, which comes after it
    obtain ⟨front', hway, hhead, -⟩ := hback
    have hnodup := FirstWay.nodup h
    rw [hsplit] at h hnodup
    have hy : y ∈ front' ++ loop := List.mem_append_right _ (List.mem_of_head? hhead)
    rw [FirstWay.unique hway (FirstWay.upTo h)] at hy
    rw [List.append_cons] at hnodup
    exact absurd rfl ((List.nodup_append.1 hnodup).2.2 y hy y (List.mem_cons_self ..))

-- ============================================================= lengths

/-- A length is decided once its name is taken. -/
theorem find?_depths_of_mem {order : List String} {v : String}
    (hstart : order <+: g.leavingOrder) (hv : v ∈ order) :
    g.depths.find? v = (g.depthsIn order).find? v := by
  obtain ⟨later, hlater⟩ := hstart
  have hnodup := g.nodup_leavingOrder
  rw [← hlater, List.nodup_append] at hnodup
  have hnew : v ∉ later := fun h => hnodup.2.2 v hv v h rfl
  rw [depths_eq_depthsIn, ← hlater]
  clear hlater hnodup
  induction later using List.reverseRecOn with
  | nil => rw [List.append_nil]
  | append_singleton later w ih =>
      rw [List.mem_append, List.mem_singleton, not_or] at hnew
      rw [← List.append_assoc, depthsIn_concat, OrderedMap.find?_upsert, if_neg hnew.2,
        ih hnew.1]

/-- The length at a name is the one over its targets that were left
before. -/
theorem find?_depths {order : List String} {v : String}
    (hstart : order ++ [v] <+: g.leavingOrder) :
    g.depths.find? v = some (depthOver (g.depthsIn order) (g.targets v)) := by
  rw [find?_depths_of_mem hstart (by simp), depthsIn_concat, OrderedMap.find?_upsert,
    if_pos rfl]

/-- A target that was left before makes the length at a name greater than
its own. -/
theorem LeftBefore.depth_lt {u w : String} (h : g.LeftBefore w u) (hlink : g.Links u w) :
    ∃ d e, g.depths.find? u = some d ∧ g.depths.find? w = some e ∧ e < d := by
  obtain ⟨rest, hsuf, hw⟩ := h
  have hstart : rest.reverse ++ [u] <+: g.leavingOrder := by
    rw [← List.reverse_cons]
    exact List.reverse_prefix.2 hsuf
  have hbefore : rest.reverse <+: g.leavingOrder :=
    (List.prefix_append ..).trans hstart
  have hw : w ∈ rest.reverse := List.mem_reverse.2 hw
  obtain ⟨e, he⟩ := OrderedMap.mem_keys_iff.1 <|
    (keys_depthsIn (g.nodup_leavingOrder.sublist hbefore.sublist)).symm ▸ hw
  refine ⟨_, e, find?_depths hstart, (find?_depths_of_mem hbefore hw).trans he, ?_⟩
  exact (isGreatest_depthOver _ _).2 (.inr ⟨w, hlink, e, he, rfl⟩)

-- =============================================================== cycles

/-- Lengths that fall from each name to the next are different, so there
is room for all of them below the first. -/
theorem exists_falling {names : List String} (hne : names ≠ [])
    (h : names.IsChain fun x y =>
      ∃ d e, g.depths.find? x = some d ∧ g.depths.find? y = some e ∧ e < d)
    (hlast : ∀ v ∈ names.getLast?, ∃ d, g.depths.find? v = some d) :
    ∃ d lengths, names.map g.depths.find? = (d :: lengths).map some ∧
      (d :: lengths).Pairwise (· > ·) ∧ names.length - 1 ≤ d := by
  induction names with
  | nil => exact absurd rfl hne
  | cons x names ih =>
      cases names with
      | nil =>
          obtain ⟨d, hd⟩ := hlast x rfl
          exact ⟨d, [], by simp [hd], List.pairwise_singleton .., Nat.zero_le _⟩
      | cons y names =>
          obtain ⟨⟨d, e, hd, he, hlt⟩, hrest⟩ := List.isChain_cons_cons.1 h
          obtain ⟨e', lengths, hmap, hfall, hlen⟩ := ih (by simp) hrest (by simpa using hlast)
          obtain rfl : e = e' := by
            rw [List.map_cons, List.map_cons, he] at hmap
            exact Option.some.inj (List.cons.inj hmap).1
          refine ⟨d, e :: lengths, by rw [List.map_cons, hmap, hd]; rfl, ?_, ?_⟩
          · refine List.pairwise_cons.2 ⟨fun n hn => ?_, hfall⟩
            rcases List.mem_cons.1 hn with rfl | hn
            · exact hlt
            · exact ((List.pairwise_cons.1 hfall).1 n hn).trans hlt
          · simp only [List.length_cons] at hlen ⊢
            omega

/-- No length is greater than the longest of a report. -/
theorem le_maxDepth {p : Project} {top : Int} (hp : p.itsGraph = g) {v : String} {d : Nat}
    (hd : g.depths.find? v = some d) : d ≤ (p.report top).complexity.maxDepth := by
  show d ≤ p.itsGraph.depths.values.foldl max 0
  rw [hp]
  exact (isGreatest_foldl_max _).2
    (.inr ((OrderedMap.mem_values_iff g.nodup_keys_depths).2 ⟨v, hd⟩))

/-- A project that was not given a graph of its own has a built one, and
lists the cycles that the search finds in it. -/
theorem cycles_report {p : Project} {top : Int}
    (hp : p.graph = none ∨ ∃ submissions, p.graph = some (build submissions)) :
    (p.report top).cycles = p.itsGraph.findCycles := by
  obtain ⟨modules, hmodules⟩ : ∃ modules, p.itsGraph = ofModules modules := by
    unfold Project.itsGraph
    rcases hp with hp | ⟨submissions, hp⟩
    · rw [hp]
      exact ⟨_, rfl⟩
    · rw [hp]
      exact ⟨_, rfl⟩
  show p.itsGraph.cycles = _
  rw [hmodules]
  exact cycles_ofModules modules

/-- The walk that measures finds the lengths of the search, and along a
cycle that the search reports they fall from each name to the next. So a
cycle of `n` names makes its first length, and the longest of a report,
`n - 1` at least. -/
theorem depths_fall_along_cycles (g : Graph) :
    (∀ known, Measuring.Ends g known ↔ known = g.depths) ∧
    (∀ c ∈ g.findCycles, ∃ d lengths,
      c.nodes.map g.depths.find? = (d :: lengths).map some ∧
      (d :: lengths).Pairwise (· > ·) ∧ c.nodes.length - 1 ≤ d ∧
      ∀ (p : Project) (top : Int), p.itsGraph = g →
        c.nodes.length - 1 ≤ (p.report top).complexity.maxDepth) ∧
    ∀ (p : Project) (top : Int),
      p.graph = none ∨ (∃ submissions, p.graph = some (build submissions)) →
        (p.report top).cycles = p.itsGraph.findCycles := by
  refine ⟨fun known => Measuring.ends_iff, fun c hc => ?_, fun p top => cycles_report⟩
  obtain ⟨u, w, loop, hback, rfl⟩ := mem_findCycles_iff.1 hc
  obtain ⟨front, hway, -, -⟩ := id hback
  have hfall : loop.IsChain fun x y =>
      ∃ d e, g.depths.find? x = some d ∧ g.depths.find? y = some e ∧ e < d :=
    (List.IsChain.right_of_append (leftBefore_of_isFirstWay hway)).imp
      fun x y h => h.2.depth_lt h.1
  have hlast : ∀ v ∈ loop.getLast?, ∃ d, g.depths.find? v = some d := by
    intro v hv
    exact OrderedMap.mem_keys_iff.1
      (mem_keys_depths_iff.2 (hback.reachable (List.mem_of_getLast? hv)))
  obtain ⟨d, lengths, hmap, hpairwise, hlen⟩ := exists_falling hback.ne_nil hfall hlast
  refine ⟨d, lengths, hmap, hpairwise, hlen, fun p top hp => hlen.trans ?_⟩
  obtain ⟨v, rest, rfl⟩ := List.exists_cons_of_ne_nil hback.ne_nil
  rw [List.map_cons, List.map_cons] at hmap
  exact le_maxDepth hp (List.cons.inj hmap).1

/-- Three files in a ring. The second one uses a file beside it as well. -/
def ring : Project where
  rootPath := "/p"
  modules := [⟨"a", [], [], ["b"], []⟩, ⟨"b", [], [], ["d", "c"], []⟩,
    ⟨"c", [], [], ["a"], []⟩, ⟨"d", [], [], [], []⟩]
  totalImports := 0
  totalExports := 0
  graph := none
  skipped := []

/-- Nodes and edges of its graph. -/
def ringGraph : Graph where
  nodes := ⟨[("a", ⟨"a", 0, 0⟩), ("b", ⟨"b", 0, 0⟩), ("c", ⟨"c", 0, 0⟩), ("d", ⟨"d", 0, 0⟩)]⟩
  edges := ⟨[("a", [⟨"a", "b", .importing⟩]),
    ("b", [⟨"b", "d", .importing⟩, ⟨"b", "c", .importing⟩]),
    ("c", [⟨"c", "a", .importing⟩])]⟩
  dependents := .empty
  cycles := []

theorem links_ring : links ring.modules = [("a", "b"), ("b", "d"), ("b", "c"), ("c", "a")] := rfl

theorem findCycles_ring : ring.itsGraph.findCycles = [Cycle.ofNodes ["a", "b", "c"]] := by
  have hbuilt : ring.itsGraph = ofModules ring.modules := build_map_module (by decide)
  have hnodes : ring.itsGraph.nodes = ringGraph.nodes := by
    rw [hbuilt, nodes_ofModules]
    rfl
  have hedges : ring.itsGraph.edges = ringGraph.edges := by
    rw [hbuilt, edges_ofModules, links_ring]
    rfl
  have hcycles : ringGraph.findCycles = [Cycle.ofNodes ["a", "b", "c"]] := by cbv
  rw [findCycles_congr hnodes hedges, hcycles]

theorem depths_fall_along_ring :
    Cycle.ofNodes ["a", "b", "c"] ∈ ring.itsGraph.findCycles ∧
    (∃ d lengths,
      (["a", "b", "c"].map ring.itsGraph.depths.find? = (d :: lengths).map some) ∧
      (d :: lengths).Pairwise (· > ·) ∧ 2 ≤ d) ∧
    2 ≤ (ring.report 10).complexity.maxDepth ∧
    (ring.report 10).cycles = ring.itsGraph.findCycles ∧
    Measuring.Ends ring.itsGraph ring.itsGraph.depths := by
  have hcycle : Cycle.ofNodes ["a", "b", "c"] ∈ ring.itsGraph.findCycles := by
    rw [findCycles_ring]
    exact List.mem_singleton_self _
  obtain ⟨hends, hfall, hlisted⟩ := depths_fall_along_cycles ring.itsGraph
  obtain ⟨d, lengths, hmap, hpairwise, hlen, hmax⟩ := hfall _ hcycle
  exact ⟨hcycle, ⟨d, lengths, hmap, hpairwise, hlen⟩, hmax ring 10 rfl,
    hlisted ring 10 (.inl rfl), (hends _).2 rfl⟩

end ModuleAtlas.Graph
