/-
What the reported cycles are.

# The list

The cycles are the loops of the search, without those that have the same
names as an earlier one. Nothing is lost by that: loops with the same
names are the same loop, met again over a parallel edge. So the reported
cycles are, up to repetition, the loops of the edges back along a first
way (`mem_findCycles_iff`).

# What it is good for

Each is a cycle of the graph, reported once, and no closed walk avoids
all their closing edges (`IsClosedWalk.exists_backLoop`): an edge that
closes none leads to a name left earlier, and one cannot go on to earlier
names and come back.
-/
import Mathlib.Data.List.Rotate
import ModuleAtlas.Proofs.Graph.SearchLoops

namespace ModuleAtlas

-- ================================================= cycles from a loop

namespace Cycle

theorem nodes_ofNodes (nodes : List String) : (ofNodes nodes).nodes = nodes :=
  rfl

theorem closing_eq_some_iff {c : Cycle} {u w : String} :
    c.closing = some (u, w) ↔
      c.nodes.getLast? = some u ∧ c.nodes.head? = some w := by
  unfold closing
  cases c.nodes.getLast? with
  | none => simp
  | some u' =>
      cases c.nodes.head? with
      | none => simp
      | some w' => simp

/-- The ends of the edges are the nodes, turned by one place. -/
theorem tail_append_head? (nodes : List String) :
    nodes.tail ++ nodes.head?.toList = nodes.rotate 1 := by
  cases nodes with
  | nil => rfl
  | cons v rest => simp

theorem length_edges_ofNodes (nodes : List String) :
    (ofNodes nodes).edges.length = nodes.length := by
  unfold ofNodes
  rw [List.length_zipWith, tail_append_head?, List.length_rotate, Nat.min_self]

theorem getElem?_edges_ofNodes {nodes : List String} {i : Nat} {v w : String}
    (hv : nodes[i]? = some v) (hw : nodes[(i + 1) % nodes.length]? = some w) :
    (ofNodes nodes).edges[i]? = some ⟨v, w, .importing⟩ := by
  have hi : i < nodes.length := (List.getElem?_eq_some_iff.1 hv).1
  unfold ofNodes
  rw [tail_append_head?, List.getElem?_zipWith_eq_some]
  exact ⟨v, w, hv, by rw [List.getElem?_rotate hi]; exact hw, rfl⟩

/-- An edge of the chain joins the two names. -/
def Joins (c : Cycle) (u w : String) : Prop :=
  ∃ e ∈ c.edges, e.source = u ∧ e.target = w

theorem joins_ofNodes {nodes : List String} {i : Nat} {v w : String}
    (hv : nodes[i]? = some v) (hw : nodes[(i + 1) % nodes.length]? = some w) :
    (ofNodes nodes).Joins v w :=
  ⟨_, List.mem_of_getElem? (getElem?_edges_ofNodes hv hw), rfl, rfl⟩

/-- The edges join the nodes of the chain only. -/
theorem Joins.mem_nodes {nodes : List String} {u w : String}
    (h : (ofNodes nodes).Joins u w) : u ∈ nodes ∧ w ∈ nodes := by
  obtain ⟨e, he, rfl, rfl⟩ := h
  obtain ⟨i, hi⟩ := List.mem_iff_getElem?.1 he
  unfold ofNodes at hi
  rw [tail_append_head?, List.getElem?_zipWith_eq_some] at hi
  obtain ⟨v, w, hv, hw, rfl⟩ := hi
  exact ⟨List.mem_of_getElem? hv, List.mem_rotate.1 (List.mem_of_getElem? hw)⟩

/-- Along the edges of the chain one comes from each of its nodes to each,
and back to where one was. -/
theorem transGen_joins {nodes : List String} {u v : String} (hu : u ∈ nodes)
    (hv : v ∈ nodes) : Relation.TransGen (ofNodes nodes).Joins u v := by
  refine Graph.transGen_of_ring ?_ ?_ hu hv
  · rw [List.isChain_iff_getElem]
    intro i hi
    refine joins_ofNodes (i := i) (List.getElem?_eq_getElem _) ?_
    rw [Nat.mod_eq_of_lt hi]
    exact List.getElem?_eq_getElem hi
  · intro u hu w hw
    have hlast : nodes[nodes.length - 1]? = some u := by
      rwa [← List.getLast?_eq_getElem?]
    have hlen := (List.getElem?_eq_some_iff.1 hlast).1
    refine joins_ofNodes hlast ?_
    rw [Nat.sub_add_cancel (by omega), Nat.mod_self, ← List.head?_eq_getElem?]
    exact hw

end Cycle

namespace Graph

variable {g : Graph}

-- ==================================================== distinct loops

theorem sameNames_iff {a b : List String} :
    sameNames a b = true ↔ ∀ x, x ∈ a ↔ x ∈ b := by
  simp only [sameNames, Bool.and_eq_true, List.all_eq_true, decide_eq_true_eq]
  exact ⟨fun h x => ⟨h.1 x, h.2 x⟩,
    fun h => ⟨fun x => (h x).1, fun x => (h x).2⟩⟩

theorem mem_of_mem_distinctLoops {kept ls : List (List String)}
    {l : List String} (h : l ∈ distinctLoops kept ls) : l ∈ ls := by
  induction ls generalizing kept with
  | nil => cases h
  | cons l' ls ih =>
      unfold distinctLoops at h
      split at h
      · exact List.mem_cons_of_mem _ (ih h)
      · rcases List.mem_cons.1 h with rfl | h
        · exact List.mem_cons_self ..
        · exact List.mem_cons_of_mem _ (ih h)

/-- A loop is passed over only for one with the same names. -/
theorem exists_sameNames_of_mem (kept : List (List String))
    {ls : List (List String)} {l : List String} (h : l ∈ ls) :
    ∃ k, (k ∈ kept ∨ k ∈ distinctLoops kept ls) ∧ sameNames l k = true := by
  induction ls generalizing kept with
  | nil => cases h
  | cons l' ls ih =>
      have hself : sameNames l' l' = true := sameNames_iff.2 fun _ => Iff.rfl
      unfold distinctLoops
      split
      · next hany =>
        rcases List.mem_cons.1 h with rfl | h
        · obtain ⟨k, hk, hsame⟩ := List.any_eq_true.1 hany
          exact ⟨k, .inl hk, hsame⟩
        · exact ih kept h
      · rcases List.mem_cons.1 h with rfl | h
        · exact ⟨l, .inr (List.mem_cons_self ..), hself⟩
        · obtain ⟨k, hk | hk, hsame⟩ := ih (l' :: kept) h
          · rcases List.mem_cons.1 hk with rfl | hk
            · exact ⟨k, .inr (List.mem_cons_self ..), hsame⟩
            · exact ⟨k, .inl hk, hsame⟩
          · exact ⟨k, .inr (List.mem_cons_of_mem _ hk), hsame⟩

theorem not_sameNames_of_mem_kept {kept ls : List (List String)}
    {l k : List String} (hl : l ∈ distinctLoops kept ls) (hk : k ∈ kept) :
    ¬ sameNames l k = true := by
  induction ls generalizing kept with
  | nil => cases hl
  | cons l' ls ih =>
      unfold distinctLoops at hl
      split at hl
      · exact ih hl hk
      · next hany =>
        rcases List.mem_cons.1 hl with rfl | hl
        · exact fun hsame => hany (List.any_eq_true.2 ⟨k, hk, hsame⟩)
        · exact ih hl (List.mem_cons_of_mem _ hk)

theorem pairwise_distinctLoops (kept ls : List (List String)) :
    (distinctLoops kept ls).Pairwise fun a b => ¬ ∀ x, x ∈ a ↔ x ∈ b := by
  induction ls generalizing kept with
  | nil => exact List.Pairwise.nil
  | cons l ls ih =>
      unfold distinctLoops
      split
      · exact ih kept
      · refine List.pairwise_cons.2 ⟨fun k hk hsame => ?_, ih (l :: kept)⟩
        exact not_sameNames_of_mem_kept hk (List.mem_cons_self ..)
          (sameNames_iff.2 fun x => (hsame x).symm)

-- ================================================ the reported cycles

/-- The reported cycles are the loops of the edges back along a first
way. -/
theorem mem_findCycles_iff {c : Cycle} :
    c ∈ g.findCycles ↔
      ∃ u w loop, g.BackLoop u w loop ∧ c = Cycle.ofNodes loop := by
  unfold findCycles
  rw [List.mem_map]
  constructor
  · intro h
    obtain ⟨loop, hl, rfl⟩ := h
    obtain ⟨u, w, hback⟩ := mem_loops_iff.1 (mem_of_mem_distinctLoops hl)
    exact ⟨u, w, loop, hback, rfl⟩
  · intro h
    obtain ⟨u, w, loop, hback, rfl⟩ := h
    obtain ⟨k, hk | hk, hsame⟩ :=
      exists_sameNames_of_mem [] (mem_loops_iff.2 ⟨u, w, hback⟩)
    · cases hk
    · obtain ⟨u', w', hback'⟩ := mem_loops_iff.1 (mem_of_mem_distinctLoops hk)
      rw [hback.eq_of_same_names hback' (sameNames_iff.1 hsame)]
      exact ⟨k, hk, rfl⟩

theorem BackLoop.mem_findCycles {u w : String} {loop : List String}
    (h : g.BackLoop u w loop) : Cycle.ofNodes loop ∈ g.findCycles :=
  mem_findCycles_iff.2 ⟨u, w, loop, h, rfl⟩

theorem BackLoop.closing {u w : String} {loop : List String}
    (h : g.BackLoop u w loop) : (Cycle.ofNodes loop).closing = some (u, w) :=
  Cycle.closing_eq_some_iff.2 ⟨h.getLast?, h.head?⟩

/-- Along a cycle each name is joined to the next one, and the last to
the first. -/
theorem IsCycle.links_next {nodes : List String} (hc : g.IsCycle nodes)
    {i : Nat} {v w : String} (hv : nodes[i]? = some v)
    (hw : nodes[(i + 1) % nodes.length]? = some w) : g.Links v w := by
  obtain ⟨hi, rfl⟩ := List.getElem?_eq_some_iff.1 hv
  by_cases hnext : i + 1 < nodes.length
  · rw [Nat.mod_eq_of_lt hnext] at hw
    obtain ⟨_, rfl⟩ := List.getElem?_eq_some_iff.1 hw
    exact hc.joined.getElem i hnext
  · have hlen : i + 1 = nodes.length := by omega
    rw [hlen, Nat.mod_self] at hw
    refine hc.closed _ ?_ w (by rw [List.head?_eq_getElem?]; exact hw)
    rw [List.getLast?_eq_getElem?, ← hlen]
    exact hv

/-- Each edge of the closed chain along a cycle is one of the graph. -/
theorem IsCycle.exists_edge {nodes : List String} (hc : g.IsCycle nodes)
    {i : Nat} (hi : i < nodes.length) :
    ∃ v w, nodes[i]? = some v ∧ nodes[(i + 1) % nodes.length]? = some w ∧
      (Cycle.ofNodes nodes).edges[i]? = some ⟨v, w, .importing⟩ ∧
      g.Links v w := by
  have hnext : (i + 1) % nodes.length < nodes.length := Nat.mod_lt _ (by omega)
  have hv : nodes[i]? = some nodes[i] := List.getElem?_eq_getElem hi
  have hw : nodes[(i + 1) % nodes.length]? =
      some nodes[(i + 1) % nodes.length] := List.getElem?_eq_getElem hnext
  exact ⟨_, _, hv, hw, Cycle.getElem?_edges_ofNodes hv hw, hc.links_next hv hw⟩

theorem links_of_mem_edges {c : Cycle} (hc : c ∈ g.findCycles) {e : Edge}
    (he : e ∈ c.edges) : g.Links e.source e.target := by
  obtain ⟨u, w, loop, hback, rfl⟩ := mem_findCycles_iff.1 hc
  obtain ⟨i, hi⟩ := List.mem_iff_getElem?.1 he
  have hlt : i < loop.length := by
    rw [← Cycle.length_edges_ofNodes loop]
    exact (List.getElem?_eq_some_iff.1 hi).1
  obtain ⟨v, w, _, _, hedge, hlink⟩ := hback.isCycle.exists_edge hlt
  rw [hedge] at hi
  obtain rfl := Option.some.inj hi
  exact hlink

/-- Each name on a reported cycle is joined to one that is on it, too. -/
theorem exists_links_of_mem_nodes {c : Cycle} (hc : c ∈ g.findCycles) {v : String}
    (hv : v ∈ c.nodes) : ∃ w ∈ c.nodes, g.Links v w := by
  obtain ⟨_, _, loop, hback, rfl⟩ := mem_findCycles_iff.1 hc
  obtain ⟨i, hi⟩ := List.mem_iff_getElem?.1 hv
  obtain ⟨v', w, hv', hw, -, hlink⟩ :=
    hback.isCycle.exists_edge (List.getElem?_eq_some_iff.1 hi).1
  rw [Cycle.nodes_ofNodes, hv'] at hi
  obtain rfl := Option.some.inj hi
  exact ⟨w, List.mem_of_getElem? hw, hlink⟩

/-- Back at its first name, a cycle is a closed walk. -/
theorem IsCycle.isClosedWalk {w : String} {rest : List String}
    (hc : g.IsCycle (w :: rest)) : g.IsClosedWalk (w :: rest ++ [w]) where
  joined := by
    refine hc.joined.append (List.isChain_singleton w) fun u hu x hx => ?_
    obtain rfl : w = x := Option.some.inj hx
    exact hc.closed u hu w rfl
  moves := by simp
  returns := List.getLast?_concat.symm

-- ======================================================== completeness

/-- An earlier name stands further back in the list of names left. -/
theorem LeftBefore.idxOf_lt {u w : String} (h : g.LeftBefore w u) :
    g.search.left.idxOf u < g.search.left.idxOf w := by
  obtain ⟨rest, ⟨front, hsplit⟩, hw⟩ := h
  have hn := nodup_left g
  rw [← hsplit] at hn ⊢
  obtain ⟨_, hrest, hfront⟩ := List.nodup_append.1 hn
  have hne : w ≠ u := fun heq => (List.nodup_cons.1 hrest).1 (heq ▸ hw)
  have hu' : u ∉ front := fun hu => hfront u hu u (List.mem_cons_self ..) rfl
  have hw' : w ∉ front :=
    fun hw'' => hfront w hw'' w (List.mem_cons_of_mem _ hw) rfl
  rw [List.idxOf_append_of_notMem hu', List.idxOf_append_of_notMem hw',
    List.idxOf_cons_self, List.idxOf_cons_ne _ hne.symm]
  omega

/-- A closed walk through reachable names goes over a closing edge. -/
theorem IsClosedWalk.exists_backLoop {walk : List String}
    (hwalk : g.IsClosedWalk walk) (hreach : ∀ v ∈ walk, g.Reachable v) :
    ∃ u w loop, g.BackLoop u w loop ∧ [u, w] <:+: walk := by
  by_contra hnone
  -- then each step of the walk goes to a name left earlier
  have hstep : walk.IsChain fun u w =>
      g.search.left.idxOf u < g.search.left.idxOf w := by
    rw [List.isChain_iff_forall_rel_of_append_cons_cons]
    intro u w front back hsplit
    have hpair : [u, w] <:+: walk := ⟨front, back, by rw [hsplit]; simp⟩
    have hlink : g.Links u w :=
      List.isChain_pair.1 <| List.IsChain.infix hwalk.joined hpair
    have hu : u ∈ walk := hpair.subset (List.mem_cons_self ..)
    rcases leftBefore_or_loop (hreach u hu) hlink with
      hbefore | ⟨loop, _, hback⟩
    · exact hbefore.idxOf_lt
    · exact absurd ⟨u, w, loop, hback, hpair⟩ hnone
  have hrise : (walk.map g.search.left.idxOf).IsChain (· < ·) :=
    (List.isChain_map _).2 hstep
  have hmoves := hwalk.moves
  have hreturns := hwalk.returns
  cases walk with
  | nil => simp at hmoves
  | cons first rest =>
      cases hlast : rest.getLast? with
      | none =>
          obtain rfl := List.getLast?_eq_none_iff.1 hlast
          simp at hmoves
      | some last =>
          have heq : first = last := by
            rw [List.head?_cons, List.getLast?_cons, hlast] at hreturns
            exact Option.some.inj hreturns
          rw [List.map_cons] at hrise
          have hlt := (List.pairwise_cons.1 hrise.pairwise).1 _
            (List.mem_map_of_mem (List.mem_of_getLast? hlast))
          rw [heq] at hlt
          exact absurd hlt (Nat.lt_irrefl _)

/-- So does a cycle that can be reached: the search closes a loop over one
of its names. -/
theorem IsCycle.exists_backLoop {nodes : List String} (hc : g.IsCycle nodes)
    (hreach : ∃ v ∈ nodes, g.Reachable v) :
    ∃ u w loop, g.BackLoop u w loop ∧ u ∈ nodes := by
  obtain ⟨v, hv, hreach⟩ := hreach
  cases nodes with
  | nil => cases hv
  | cons first rest =>
      have hwalk := hc.isClosedWalk
      have hmem : ∀ x ∈ first :: rest ++ [first], x ∈ first :: rest := by
        simp [or_comm]
      obtain ⟨u, w, loop, hback, hpair⟩ := hwalk.exists_backLoop
        fun x hx => hreach.trans (hc.reaches hv (hmem x hx))
      exact ⟨u, w, loop, hback, hmem u (hpair.subset (List.mem_cons_self ..))⟩

/-- The closing edges of the reported cycles meet every closed walk that
can be reached. So a cycle is reported if there is any, and one in each
strongly connected component that holds a closed walk. -/
theorem findCycles_complete (g : Graph) :
    (∀ walk, g.IsClosedWalk walk → (∀ v ∈ walk, g.Reachable v) →
      ∃ c ∈ g.findCycles, ∃ u w, c.closing = some (u, w) ∧ [u, w] <:+: walk) ∧
    (g.findCycles = [] ↔
      ¬ ∃ walk, g.IsClosedWalk walk ∧ ∀ v ∈ walk, g.Reachable v) ∧
    ∀ v walk, g.Reachable v → g.IsClosedWalk walk →
      (∀ u ∈ walk, g.StronglyConnected v u) →
      ∃ c ∈ g.findCycles,
        c.nodes ≠ [] ∧ ∀ u ∈ c.nodes, g.StronglyConnected v u := by
  refine ⟨fun walk hwalk hreach => ?_, ⟨fun hnil => ?_, fun hnone => ?_⟩,
    fun v walk hv hwalk hconn => ?_⟩
  · obtain ⟨u, w, loop, hback, hpair⟩ := hwalk.exists_backLoop hreach
    exact ⟨_, hback.mem_findCycles, u, w, hback.closing, hpair⟩
  · intro h
    obtain ⟨walk, hwalk, hreach⟩ := h
    obtain ⟨u, w, loop, hback, _⟩ := hwalk.exists_backLoop hreach
    have hmem := hback.mem_findCycles
    rw [hnil] at hmem
    cases hmem
  · refine List.eq_nil_iff_forall_not_mem.2 fun c hc => hnone ?_
    obtain ⟨u, w, loop, hback, rfl⟩ := mem_findCycles_iff.1 hc
    obtain ⟨rest, rfl⟩ := List.head?_eq_some_iff.1 hback.head?
    refine ⟨_, hback.isCycle.isClosedWalk, fun v hv => hback.reachable ?_⟩
    rcases List.mem_append.1 hv with hv | hv
    · exact hv
    · rw [List.mem_singleton.1 hv]
      exact List.mem_cons_self ..
  · have hreach : ∀ u ∈ walk, g.Reachable u :=
      fun u hu => hv.trans (hconn u hu).1
    obtain ⟨u, w, loop, hback, hpair⟩ := hwalk.exists_backLoop hreach
    have hvu := hconn u (hpair.subset (List.mem_cons_self ..))
    have hu := List.mem_of_getLast? hback.getLast?
    refine ⟨_, hback.mem_findCycles, hback.ne_nil, fun x hx => ?_⟩
    have hux := hback.isCycle.stronglyConnected hu hx
    exact ⟨hvu.1.trans hux.1, hux.2.trans hvu.2⟩

-- =========================================================== soundness

/-- Every reported cycle is an elementary cycle of the graph with its
edges in order, all of it can be reached, and no two of them have the
same names or the same closing edge. -/
theorem findCycles_sound (g : Graph) :
    (∀ c ∈ g.findCycles,
      c.nodes ≠ [] ∧ c.nodes.Nodup ∧ c.edges.length = c.nodes.length ∧
      (∀ i < c.nodes.length, ∃ v w,
        c.nodes[i]? = some v ∧ c.nodes[(i + 1) % c.nodes.length]? = some w ∧
        c.edges[i]? = some ⟨v, w, .importing⟩ ∧
        ∃ e ∈ g.edgesFrom v, e.target = w) ∧
      ∀ v ∈ c.nodes, g.Reachable v) ∧
    g.findCycles.Pairwise fun c d =>
      (¬ ∀ v, v ∈ c.nodes ↔ v ∈ d.nodes) ∧ c.closing ≠ d.closing := by
  refine ⟨fun c hc => ?_, ?_⟩
  · obtain ⟨u, w, loop, hback, rfl⟩ := mem_findCycles_iff.1 hc
    have hcycle := hback.isCycle
    refine ⟨hcycle.nonempty, hcycle.distinct, Cycle.length_edges_ofNodes loop,
      fun i hi => ?_, fun v hv => hback.reachable hv⟩
    rw [Cycle.nodes_ofNodes] at hi ⊢
    obtain ⟨v, w, hv, hw, hedge, hlink⟩ := hcycle.exists_edge hi
    exact ⟨v, w, hv, hw, hedge, links_iff_exists_edge.1 hlink⟩
  · unfold findCycles
    refine List.pairwise_map.2 ?_
    refine (pairwise_distinctLoops [] g.loops).imp_of_mem ?_
    intro a b ha hb hdiff
    refine ⟨hdiff, fun hclosing => hdiff ?_⟩
    obtain ⟨u, w, hback⟩ := mem_loops_iff.1 (mem_of_mem_distinctLoops ha)
    obtain ⟨u', w', hback'⟩ := mem_loops_iff.1 (mem_of_mem_distinctLoops hb)
    rw [hback.closing, hback'.closing] at hclosing
    obtain ⟨rfl, rfl⟩ := Prod.mk.inj (Option.some.inj hclosing)
    rw [hback.unique hback']
    exact fun x => Iff.rfl

end Graph

end ModuleAtlas
