/-
Each length is decided by the targets that were settled before.

# The order

A name is settled when the search leaves it, and the lengths are listed in
that order (`SettledBefore`). The length at a name is one more than the
greatest of those at the targets settled before it, and zero if there are
none (`isGreatest_depth`). That holds of every graph: cycles only decide
which of the targets come too late.

# What comes too late

The walk that measures ignores a target if it is still in it. It always
stands in the first way to the name where it is, and what lies on that way
is settled with the name or after it. Any other target was settled before,
or will be before the name is (`mem_chain_iff`). So an edge is ignored for
no other reason than that its target is settled too late.

# What the lengths are worth

Where a length is more than zero, it goes on from a target that was settled
before. So each is the length of a way on which names are settled earlier
and earlier, and such a way comes to no name twice (`exists_path`).
-/
import ModuleAtlas.Proofs.Graph.Descent

namespace ModuleAtlas

open Relation

-- ============================================================= positions

/-- What stands before a name in a list is what is found before it. -/
theorem idxOf_lt_idxOf_iff_mem {α : Type} [DecidableEq α] {xs ys : List α} {u w : α}
    (hu : u ∉ xs) : (xs ++ u :: ys).idxOf w < (xs ++ u :: ys).idxOf u ↔ w ∈ xs := by
  rw [List.idxOf_append_of_notMem hu, List.idxOf_cons_self, Nat.add_zero]
  constructor
  · intro hlt
    by_contra hw
    rw [List.idxOf_append_of_notMem hw] at hlt
    omega
  · intro hw
    rw [List.idxOf_append_of_mem hw]
    exact List.idxOf_lt_length_of_mem hw

namespace Graph

variable {g : Graph} {u w : String} {d : Nat}

/-- In the list of lengths, `w` comes before `u`. -/
def SettledBefore (g : Graph) (w u : String) : Prop :=
  g.depths.keys.idxOf w < g.depths.keys.idxOf u

theorem settledBefore_iff_mem {order later : List String}
    (h : g.leavingOrder = order ++ u :: later) : g.SettledBefore w u ↔ w ∈ order := by
  have hnodup := g.nodup_leavingOrder
  rw [h] at hnodup
  unfold SettledBefore
  rw [keys_depths, h]
  exact idxOf_lt_idxOf_iff_mem fun hu =>
    (List.nodup_append.1 hnodup).2.2 u hu u (List.mem_cons_self ..) rfl

/-- The lengths are listed in the order in which the names were left. -/
theorem settledBefore_iff_leftBefore (hu : g.Reachable u) :
    g.SettledBefore w u ↔ g.LeftBefore w u := by
  obtain ⟨order, later, horder⟩ := List.append_of_mem (mem_leavingOrder_iff.2 hu)
  rw [settledBefore_iff_mem horder]
  constructor
  · intro hw
    refine ⟨order.reverse, ⟨later.reverse, ?_⟩, List.mem_reverse.2 hw⟩
    have hleft := congrArg List.reverse horder
    unfold leavingOrder at hleft
    rw [List.reverse_reverse] at hleft
    rw [hleft]
    simp
  · intro h
    exact h.mem_of_leavingOrder ⟨later, by rw [horder]; simp⟩

-- ====================================================== the local equation

/-- A target that can be led to has its length. -/
theorem mem_keys_of_links (hu : u ∈ g.depths.keys) (hlink : g.Links u w) :
    w ∈ g.depths.keys :=
  mem_keys_depths_iff.2 ((mem_keys_depths_iff.1 hu).trans (ReflTransGen.single hlink))

theorem mem_keys_of_find? (hd : g.depths.find? u = some d) : u ∈ g.depths.keys :=
  OrderedMap.mem_keys_iff.2 ⟨d, hd⟩

/-- The length at a name is one more than the greatest of those at its
targets that were settled before it, and zero if there are none. -/
theorem isGreatest_depth (hd : g.depths.find? u = some d) :
    IsGreatest
      (insert 0 {n | ∃ w e, g.Links u w ∧ g.SettledBefore w u ∧
        g.depths.find? w = some e ∧ n = e + 1}) d := by
  have hu : u ∈ g.leavingOrder := by
    rw [← keys_depths]
    exact mem_keys_of_find? hd
  obtain ⟨order, later, horder⟩ := List.append_of_mem hu
  have hstart : order ++ [u] <+: g.leavingOrder := ⟨later, by rw [horder]; simp⟩
  have hbefore : order <+: g.leavingOrder := (List.prefix_append ..).trans hstart
  -- what is known when `u` is taken is known of the names before it
  have hkeys : (g.depthsIn order).keys = order :=
    keys_depthsIn (g.nodup_leavingOrder.sublist hbefore.sublist)
  have hknown : ∀ w e, (g.depthsIn order).find? w = some e ↔
      g.SettledBefore w u ∧ g.depths.find? w = some e := by
    intro w e
    rw [settledBefore_iff_mem horder]
    constructor
    · intro he
      have hw : w ∈ order := by
        rw [← hkeys]
        exact OrderedMap.mem_keys_iff.2 ⟨e, he⟩
      exact ⟨hw, (find?_depths_of_mem hbefore hw).trans he⟩
    · intro h
      exact (find?_depths_of_mem hbefore h.1).symm.trans h.2
  have hgreatest := isGreatest_depthOver (g.depthsIn order) (g.targets u)
  rw [← Option.some.inj ((find?_depths hstart).symm.trans hd)]
  convert hgreatest using 3
  ext n
  simp only [hknown, and_assoc, exists_and_left]
  rfl

-- ============================================================ simple paths

/-- A length is that of a way on which each name is settled before the one
that leads to it. -/
theorem exists_falling_way (hd : g.depths.find? u = some d) :
    ∃ way : List String, (u :: way).IsChain g.Links ∧
      (u :: way).Pairwise (fun x y => g.SettledBefore y x) ∧ way.length = d := by
  induction d generalizing u with
  | zero => exact ⟨[], List.isChain_singleton u, List.pairwise_singleton .., rfl⟩
  | succ d ih =>
      rcases (isGreatest_depth hd).1 with hzero | ⟨w, e, hlink, hbefore, he, hde⟩
      · cases hzero
      · obtain rfl : d = e := Nat.succ.inj hde
        obtain ⟨way, hchain, hfall, hlen⟩ := ih he
        refine ⟨w :: way, List.isChain_cons_cons.2 ⟨hlink, hchain⟩,
          List.pairwise_cons.2 ⟨fun y hy => ?_, hfall⟩, by rw [List.length_cons, hlen]⟩
        rcases List.mem_cons.1 hy with rfl | hy
        · exact hbefore
        · exact Nat.lt_trans ((List.pairwise_cons.1 hfall).1 y hy) hbefore

/-- So it is the length of a way that comes to no name twice. -/
theorem exists_path (hd : g.depths.find? u = some d) :
    ∃ path : List String, path.head? = some u ∧ path.IsChain g.Links ∧ path.Nodup ∧
      path.length = d + 1 := by
  obtain ⟨way, hchain, hfall, hlen⟩ := exists_falling_way hd
  refine ⟨u :: way, rfl, hchain, hfall.imp fun {x y} hlt heq => ?_, by
    rw [List.length_cons, hlen]⟩
  rw [heq] at hlt
  exact Nat.lt_irrefl _ hlt

/-- There are fewer edges on it than names that can be reached. -/
theorem depth_lt_length (hd : g.depths.find? u = some d) : d < g.depths.keys.length := by
  obtain ⟨path, hhead, hchain, hnodup, hlen⟩ := exists_path hd
  obtain ⟨way, rfl⟩ := List.head?_eq_some_iff.1 hhead
  have hreach := mem_keys_depths_iff.1 (mem_keys_of_find? hd)
  have hsub : u :: way ⊆ g.depths.keys := fun x hx =>
    mem_keys_depths_iff.2 (hreach.trans (reflTransGen_of_isChain hchain hx))
  have hle := (List.subperm_of_subset hnodup hsub).length_le
  omega

end Graph

-- ========================================================== ignored edges

namespace Search

variable {g : Graph} {s : Search} {u w : String} {pending : List String}
    {outer : List Frame}

/-- A target that is looked at is on the chain unless it is left before the
name that leads to it. -/
theorem Reached.mem_chain_iff (h : Reached g s) (hc : s.chain = ⟨u, w :: pending⟩ :: outer) :
    w ∈ s.chain.map Frame.name ↔ ¬ g.LeftBefore w u := by
  have hinnermost : s.chainNames.head? = some u := by
    unfold chainNames
    rw [hc]
    rfl
  have hway := h.sound.firstWay hinnermost
  have hu : g.Reachable u := h.reachable u
    (List.mem_append_left _ (List.mem_of_mem_head? hinnermost))
  have hlink : g.Links u w := by
    have hmem : w ∈ g.choices s.chain :=
      h.sound.pending_mem_choices (show Search.pending s.roots s.chain = w :: pending by
        rw [hc]
        rfl)
    rwa [hc] at hmem
  constructor
  · intro hw
    exact Graph.not_leftBefore_of_mem_way hway (List.mem_reverse.2 hw)
  · intro hlate
    obtain ⟨loop, -, front, hway', hhead, -⟩ :=
      (Graph.leftBefore_or_loop hu hlink).resolve_left hlate
    have hw : w ∈ front ++ loop := List.mem_append_right _ (List.mem_of_head? hhead)
    rw [Graph.FirstWay.unique hway' hway] at hw
    exact List.mem_reverse.1 hw

end Search

namespace Measuring

variable {g : Graph} {m : Measuring} {u w : String} {pending : List String}
    {outer : List Frame}

/-- Where the walk that measures comes to, the search does as well. -/
theorem exists_reached (h : ReflTransGen (Step g) (.start g) m) :
    ∃ s, Search.Reached g s ∧ Search.Keeps g s m := by
  induction h with
  | refl => exact ⟨_, .refl, Search.keeps_start g⟩
  | @tail m m' _ hstep ih =>
      obtain ⟨s, hreached, hkeeps⟩ := ih
      cases hnext : s.next? g with
      | none =>
          obtain ⟨hchain, hroots⟩ := Search.chain_of_next?_none hnext
          rw [Step, next?_eq_none hkeeps hchain hroots] at hstep
          cases hstep
      | some s' =>
          have hs := Search.step_of_next? hnext
          obtain ⟨m'', hstep', hkeeps'⟩ := hs.keeps hreached.sound hkeeps
          rw [rightUnique_step g hstep hstep']
          exact ⟨s', hreached.tail hs, hkeeps'⟩

/-- A target that is looked at is ignored exactly if it is not settled
before the name that leads to it. -/
theorem mem_chain_iff (h : ReflTransGen (Step g) (.start g) m)
    (hc : m.chain = ⟨u, w :: pending⟩ :: outer) :
    w ∈ m.chain.map Frame.name ↔ ¬ g.SettledBefore w u := by
  obtain ⟨s, hreached, hkeeps⟩ := exists_reached h
  rw [hkeeps.chain] at hc ⊢
  have hu : g.Reachable u := hreached.reachable u <| List.mem_append_left _ <| by
    unfold Search.chainNames
    rw [hc]
    exact List.mem_cons_self ..
  rw [hreached.mem_chain_iff hc, Graph.settledBefore_iff_leftBefore hu]

end Measuring

-- ================================================================ lengths

namespace Graph

/-- The walk that measures finds a length for each name that can be
reached, listed as they are settled. Each is one more than the greatest at
the targets settled before, which is the length of a way that comes to no
name twice, and only those edges are ignored whose target is not settled
before. -/
theorem depths_local (g : Graph) :
    (∀ known, Measuring.Ends g known ↔ known = g.depths) ∧
    g.depths.keys.Nodup ∧
    (∀ v, v ∈ g.depths.keys ↔ g.Reachable v) ∧
    (∀ u d, g.depths.find? u = some d →
      (∀ w, g.Links u w → w ∈ g.depths.keys) ∧
      IsGreatest
        (insert 0 {n | ∃ w e, g.Links u w ∧ g.SettledBefore w u ∧
          g.depths.find? w = some e ∧ n = e + 1}) d ∧
      (∃ path : List String, path.head? = some u ∧ path.IsChain g.Links ∧ path.Nodup ∧
        path.length = d + 1) ∧
      d < g.depths.keys.length) ∧
    ∀ m u w pending outer, ReflTransGen (Measuring.Step g) (.start g) m →
      m.chain = ⟨u, w :: pending⟩ :: outer →
        (w ∈ m.chain.map Frame.name ↔ ¬ g.SettledBefore w u) := by
  refine ⟨fun known => Measuring.ends_iff, g.nodup_keys_depths,
    fun v => mem_keys_depths_iff, fun u d hd => ?_,
    fun m u w pending outer => Measuring.mem_chain_iff⟩
  exact ⟨fun w => mem_keys_of_links (mem_keys_of_find? hd), isGreatest_depth hd,
    exists_path hd, depth_lt_length hd⟩

/-- In the ring, the edge back to `a` is the only one that is ignored. -/
theorem depths_local_ring :
    ringGraph.depths.keys = ["d", "c", "b", "a"] ∧
    ringGraph.depths.find? "a" = some 2 ∧
    (∃ path : List String, path.head? = some "a" ∧ path.IsChain ringGraph.Links ∧
      path.Nodup ∧ path.length = 3) ∧
    2 < ringGraph.depths.keys.length ∧
    ringGraph.depths.find? "c" = some 0 ∧
    IsGreatest
      (insert 0 {n | ∃ w e, ringGraph.Links "c" w ∧ ringGraph.SettledBefore w "c" ∧
        ringGraph.depths.find? w = some e ∧ n = e + 1}) 0 := by
  obtain ⟨-, -, -, hlocal, -⟩ := depths_local ringGraph
  have ha : ringGraph.depths.find? "a" = some 2 := by cbv
  have hc : ringGraph.depths.find? "c" = some 0 := by cbv
  obtain ⟨-, -, hpath, hlt⟩ := hlocal "a" 2 ha
  obtain ⟨-, hgreatest, -, -⟩ := hlocal "c" 0 hc
  exact ⟨by cbv, ha, hpath, hlt, hc, hgreatest⟩

end Graph

end ModuleAtlas
