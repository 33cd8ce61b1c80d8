/-
Graphs whose cycles keep apart.

# Which graphs these are

A search reports some cycles and may miss others. It misses none if no
two cycles have a name in common (`CyclesApart`). That is so if each name
leads to at most one name that leads back to it (`cyclesApart_of_return`):
loops may be joined in any way that has no way back.

# What is reported

Each cycle goes over an edge that closes a loop of the search, and that
loop, sharing a name with the cycle, is the cycle itself, started
elsewhere. No loop is reported twice, so each cycle is reported once
(`findCycles_exact`). The order of nodes and edges plays no part in this:
it decides where a cycle starts and which one comes first.
-/
import Mathlib.Data.List.Rotate
import ModuleAtlas.Proofs.Graph.Alike

namespace ModuleAtlas.Graph

variable {g g' : Graph} {v : String} {nodes : List String}

/-- No name that can be reached lies on two cycles. Where a cycle starts
and over which of several edges it goes makes no difference to it. -/
def CyclesApart (g : Graph) : Prop :=
  ∀ v, g.Reachable v → ∀ c d : List String,
    g.IsCycle c → g.IsCycle d → v ∈ c → v ∈ d → c.IsRotated d

-- ========================================================= keeping apart

/-- A cycle may start at any of its names. -/
theorem IsCycle.exists_isRotated (hc : g.IsCycle nodes) (hv : v ∈ nodes) :
    ∃ rest, nodes.IsRotated (v :: rest) ∧ g.IsCycle (v :: rest) := by
  obtain ⟨front, back, rfl⟩ := List.append_of_mem hv
  have hrotated : (front ++ v :: back).IsRotated (v :: back ++ front) :=
    List.isRotated_append
  obtain ⟨hfront, hback, hstep⟩ := List.isChain_append.1 hc.joined
  refine ⟨back ++ front, hrotated, List.cons_ne_nil _ _,
    hrotated.nodup_iff.1 hc.distinct, ?_, ?_⟩
  · refine List.isChain_append.2 ⟨hback, hfront, fun u hu w hw => ?_⟩
    refine hc.closed u ?_ w ?_
    · rwa [List.getLast?_append_of_ne_nil _ (List.cons_ne_nil _ _)]
    · rw [List.head?_append, Option.mem_def.1 hw]
      rfl
  · intro u hu w hw
    obtain rfl : v = w := Option.some.inj hw
    cases front with
    | nil =>
        rw [List.append_nil] at hu
        exact hc.closed u hu v rfl
    | cons first front =>
        rw [← List.cons_append, List.getLast?_append_of_ne_nil _ (List.cons_ne_nil _ _)] at hu
        exact hstep u hu v rfl

/-- Where each name is related to one name at most, there is one way on
to the first return to a name. -/
theorem return_unique {r : String → String → Prop}
    (hunique : ∀ u w w', r u w → r u w' → w = w') {u : String} {xs ys : List String}
    (hxs : (u :: xs ++ [v]).IsChain r) (hys : (u :: ys ++ [v]).IsChain r)
    (hx : v ∉ xs) (hy : v ∉ ys) : xs = ys := by
  induction xs generalizing u ys with
  | nil =>
      cases ys with
      | nil => rfl
      | cons y ys =>
          have hv := hunique u v y (List.isChain_cons_cons.1 hxs).1
            (List.isChain_cons_cons.1 hys).1
          exact absurd (by simp [hv]) hy
  | cons x xs ih =>
      cases ys with
      | nil =>
          have hv := hunique u v x (List.isChain_cons_cons.1 hys).1
            (List.isChain_cons_cons.1 hxs).1
          exact absurd (by simp [hv]) hx
      | cons y ys =>
          obtain ⟨hux, hxs⟩ := List.isChain_cons_cons.1 hxs
          obtain ⟨huy, hys⟩ := List.isChain_cons_cons.1 hys
          obtain rfl := hunique u x y hux huy
          rw [List.mem_cons, not_or] at hx hy
          rw [ih hxs hys hx.2 hy.2]

/-- Cycles keep apart if no name leads to two names that lead back. -/
theorem cyclesApart_of_return
    (h : ∀ u w w', g.Links u w → g.Links u w' → g.Reaches w u → g.Reaches w' u → w = w') :
    g.CyclesApart := by
  intro v _ c d hc hd hvc hvd
  obtain ⟨xs, hcx, hxs⟩ := hc.exists_isRotated hvc
  obtain ⟨ys, hdy, hys⟩ := hd.exists_isRotated hvd
  -- around a cycle, each name leads to one that leads back
  have hround : ∀ {rest}, g.IsCycle (v :: rest) →
      (v :: rest ++ [v]).IsChain fun u w => g.Links u w ∧ g.Reaches w u := by
    intro rest hcycle
    have hmem : ∀ x ∈ v :: rest ++ [v], x ∈ v :: rest := by
      simp [or_comm]
    exact hcycle.isClosedWalk.joined.imp_of_mem_imp fun u w hu hw hlink =>
      ⟨hlink, hcycle.reaches (hmem w hw) (hmem u hu)⟩
  have hrest : xs = ys := return_unique
    (fun u w w' hw hw' => h u w w' hw.1 hw'.1 hw.2 hw'.2) (hround hxs) (hround hys)
    (List.nodup_cons.1 hxs.distinct).1 (List.nodup_cons.1 hys.distinct).1
  rw [hrest] at hcx
  exact hcx.trans hdy.symm

-- ============================================================ reporting

theorem countP_eq_one {α : Type} {p : α → Bool} {l : List α}
    (hsome : ∃ x ∈ l, p x = true)
    (hpairs : l.Pairwise fun x y => ¬ (p x = true ∧ p y = true)) :
    l.countP p = 1 := by
  induction l with
  | nil => simp at hsome
  | cons x l ih =>
      rw [List.pairwise_cons] at hpairs
      by_cases hx : p x = true
      · have hnone : l.countP p = 0 :=
          List.countP_eq_zero.2 fun y hy hpy => hpairs.1 y hy ⟨hx, hpy⟩
        rw [List.countP_cons_of_pos hx, hnone]
      · rw [List.countP_cons_of_neg hx]
        refine ih ?_ hpairs.2
        obtain ⟨y, hy, hpy⟩ := hsome
        rcases List.mem_cons.1 hy with rfl | hy
        · exact absurd hpy hx
        · exact ⟨y, hy, hpy⟩

/-- No two reported cycles have the same names. -/
theorem pairwise_findCycles (g : Graph) :
    g.findCycles.Pairwise fun c d => ¬ ∀ v, v ∈ c.nodes ↔ v ∈ d.nodes :=
  List.pairwise_map.2 (pairwise_distinctLoops [] g.loops)

/-- So none is reported twice, started at different names. -/
theorem countP_isRotated_eq_one {c : Cycle} (hc : c ∈ g.findCycles)
    (hrotated : c.nodes.IsRotated nodes) :
    g.findCycles.countP (fun c => c.nodes.IsRotated nodes) = 1 := by
  refine countP_eq_one ⟨c, hc, decide_eq_true hrotated⟩ ?_
  refine (pairwise_findCycles g).imp fun hdiff hboth => hdiff fun v => ?_
  simp only [decide_eq_true_iff] at hboth
  rw [hboth.1.mem_iff, hboth.2.mem_iff]

/-- If its cycles keep apart, the cycles reported in a graph are all its
cycles that can be reached, each reported once. So they are in any graph
that has its nodes and edges in another order. -/
theorem findCycles_exact (hapart : g.CyclesApart) (halike : g.Alike g') :
    (∀ c ∈ g'.findCycles, c = Cycle.ofNodes c.nodes ∧ g.IsCycle c.nodes ∧
      ∀ v ∈ c.nodes, g.Reachable v) ∧
    ∀ nodes, g.IsCycle nodes → (∃ v ∈ nodes, g.Reachable v) →
      g'.findCycles.countP (fun c => c.nodes.IsRotated nodes) = 1 := by
  constructor
  · intro c hc
    obtain ⟨_, _, loop, hback, rfl⟩ := mem_findCycles_iff.1 hc
    exact ⟨rfl, halike.symm.isCycle hback.isCycle,
      fun v hv => halike.reachable_iff.2 (hback.reachable hv)⟩
  · intro nodes hcycle hreach
    obtain ⟨v, hv, hreach⟩ := hreach
    obtain ⟨u, _, loop, hback, hu⟩ := (halike.isCycle hcycle).exists_backLoop
      ⟨v, hv, halike.reachable_iff.1 hreach⟩
    have hu' := List.mem_of_getLast? hback.getLast?
    refine countP_isRotated_eq_one hback.mem_findCycles ?_
    exact hapart u (hreach.trans (hcycle.reaches hv hu)) loop nodes
      (halike.symm.isCycle hback.isCycle) hcycle hu' hu

/-- A ring of two names, joined by parallel edges, with a way in and a way
out to a name that leads to itself. -/
theorem findCycles_exact_ring :
    let edge := fun source target => (⟨source, target, .importing⟩ : Edge)
    let node := fun path => (path, (⟨path, 0, 0⟩ : Node))
    let g : Graph := {
      nodes := ⟨[node "p", node "c"]⟩
      edges := ⟨[("p", [edge "p" "a"]), ("a", [edge "a" "b", edge "a" "b"]),
        ("b", [edge "b" "c", edge "b" "a"]), ("c", [edge "c" "c"])]⟩
      dependents := .empty
      cycles := [] }
    let g' : Graph := {
      nodes := ⟨[node "c", node "p"]⟩
      edges := ⟨[("b", [edge "b" "a", edge "b" "c"]), ("c", [edge "c" "c"]),
        ("a", [edge "a" "b", edge "a" "b"]), ("p", [edge "p" "a"])]⟩
      dependents := .empty
      cycles := [] }
    g.CyclesApart ∧ g.Alike g' ∧
      g'.findCycles.countP (fun c => c.nodes.IsRotated ["b", "a"]) = 1 := by
  intro edge node g g'
  have hlinks : ∀ u v, g.Links u v ↔ u = "p" ∧ v = "a" ∨ u = "a" ∧ v = "b" ∨
      u = "b" ∧ (v = "a" ∨ v = "c") ∨ u = "c" ∧ v = "c" := by
    intro u v
    rw [links_iff_exists_entry (by decide)]
    simp only [g, edge, List.mem_cons, List.not_mem_nil, or_false, exists_eq_or_imp,
      exists_eq_left]
    grind
  have hlinks' : ∀ u v, g'.Links u v ↔ g.Links u v := by
    intro u v
    rw [hlinks, links_iff_exists_entry (by decide)]
    simp only [g', edge, List.mem_cons, List.not_mem_nil, or_false, exists_eq_or_imp,
      exists_eq_left]
    grind
  -- there is no way back from `c`
  have hout : ∀ v, g.Reaches "c" v → v = "c" := by
    intro v h
    induction h with
    | refl => rfl
    | tail _ hlink ih => grind
  have hapart : g.CyclesApart := cyclesApart_of_return fun u w w' hw hw' hback hback' => by
    rw [hlinks] at hw hw'
    grind
  have halike : g.Alike g' :=
    ⟨fun v => by simp [OrderedMap.keys, g, g', node, or_comm],
      fun u v => (hlinks' u v).symm⟩
  have hcycle : g.IsCycle ["b", "a"] :=
    ⟨by simp, by decide, by simp [hlinks], by simp [hlinks]⟩
  have hreach : g.Reachable "a" :=
    ⟨"p", by simp [OrderedMap.keys, g, node], .single ((hlinks _ _).2 (.inl ⟨rfl, rfl⟩))⟩
  exact ⟨hapart, halike, (findCycles_exact hapart halike).2 _ hcycle ⟨"a", by simp, hreach⟩⟩

end ModuleAtlas.Graph
