/-
The lengths of dependency chains.

# In the order of leaving

The length at a name is made from the lengths at its targets that are
known already, and names are taken in the order in which the search left
them. So a length is decided when its name is taken, by the names before
it (`depthsIn_concat`), and there is one entry for each name
(`keys_depthsIn`).

# Without cycles

If no closed walk can be reached, every target of a name was left before
it (`Acyclic.leftBefore`). Then all lengths that matter are known in
time, and each is that of the longest walk
(`Acyclic.isGreatest_depthsIn`). The induction is along the order of
leaving; a walk is longer by one edge than what it goes on with from a
target (`hasWalk_succ_iff`).
-/
import Mathlib
import ModuleAtlas.Report
import ModuleAtlas.Proofs.OrderedMap
import ModuleAtlas.Proofs.Graph.Cycles

namespace ModuleAtlas

-- ======================================================= greatest of all

/-- The maximum that is kept while a list is gone through. -/
theorem isGreatest_foldl_max (ns : List Nat) :
    IsGreatest (insert 0 {n | n ∈ ns}) (ns.foldl max 0) := by
  induction ns using List.reverseRecOn with
  | nil => simp [isGreatest_singleton]
  | append_singleton ns n ih =>
      rw [List.foldl_concat]
      have hset : (insert 0 {k | k ∈ ns ++ [n]} : Set Nat) =
          insert n (insert 0 {k | k ∈ ns}) := by
        ext k
        simp
        tauto
      rw [hset, max_comm]
      exact ih.insert n

namespace Graph

variable {g : Graph}

-- =============================================================== walks

/-- A walk over `n` edges starts in `v`. -/
def HasWalk (g : Graph) (v : String) (n : Nat) : Prop :=
  ∃ walk : List String,
    walk.head? = some v ∧ walk.IsChain g.Links ∧ walk.length = n + 1

theorem hasWalk_zero (g : Graph) (v : String) : g.HasWalk v 0 :=
  ⟨[v], rfl, List.isChain_singleton v, rfl⟩

/-- A walk goes over an edge first and then on from its target. -/
theorem hasWalk_succ_iff {v : String} {n : Nat} :
    g.HasWalk v (n + 1) ↔ ∃ w, g.Links v w ∧ g.HasWalk w n := by
  constructor
  · intro h
    obtain ⟨walk, hhead, hchain, hlen⟩ := h
    match walk with
    | [] => cases hhead
    | [_] => simp at hlen
    | u :: w :: rest =>
        obtain rfl : u = v := Option.some.inj hhead
        obtain ⟨hlink, hrest⟩ := List.isChain_cons_cons.1 hchain
        exact ⟨w, hlink, w :: rest, rfl, hrest, by simpa using hlen⟩
  · intro h
    obtain ⟨w, hlink, walk, hhead, hchain, hlen⟩ := h
    obtain ⟨rest, rfl⟩ := List.head?_eq_some_iff.1 hhead
    exact ⟨v :: w :: rest, rfl, List.isChain_cons_cons.2 ⟨hlink, hchain⟩,
      by simpa using hlen⟩

-- ==================================================== known lengths

/-- The length over some targets is one more than the greatest of those
known, and zero if none is. -/
theorem isGreatest_depthOver (known : OrderedMap Nat) (targets : List String) :
    IsGreatest
      (insert 0 {n | ∃ w ∈ targets, ∃ d, known.find? w = some d ∧ n = d + 1})
      (depthOver known targets) := by
  have hfold : depthOver known targets =
      ((targets.filterMap known.find?).map (· + 1)).foldl max 0 := by
    unfold depthOver
    rw [List.foldl_map, List.foldl_filterMap]
    congr 1
    funext best w
    cases known.find? w <;> rfl
  have hset : {n | n ∈ (targets.filterMap known.find?).map (· + 1)} =
      {n | ∃ w ∈ targets, ∃ d, known.find? w = some d ∧ n = d + 1} := by
    refine Set.ext fun n => ⟨fun h => ?_, fun h => ?_⟩
    · obtain ⟨d, hd, rfl⟩ := List.mem_map.1 h
      obtain ⟨w, hw, hd⟩ := List.mem_filterMap.1 hd
      exact ⟨w, hw, d, hd, rfl⟩
    · obtain ⟨w, hw, d, hd, rfl⟩ := h
      exact List.mem_map_of_mem (List.mem_filterMap.2 ⟨w, hw, hd⟩)
  rw [hfold, ← hset]
  exact isGreatest_foldl_max _

/-- The lengths at these names, taken in this order. -/
def depthsIn (g : Graph) (order : List String) : OrderedMap Nat :=
  order.foldl
    (fun known v => known.upsert v fun _ => depthOver known (g.targets v)) .empty

theorem depths_eq_depthsIn (g : Graph) :
    g.depths = g.depthsIn g.leavingOrder := rfl

/-- The last name is taken when all the others have their length. -/
theorem depthsIn_concat (order : List String) (v : String) :
    g.depthsIn (order ++ [v]) =
      (g.depthsIn order).upsert v fun _ =>
        depthOver (g.depthsIn order) (g.targets v) :=
  List.foldl_concat ..

theorem keys_depthsIn {order : List String} (h : order.Nodup) :
    (g.depthsIn order).keys = order := by
  induction order using List.reverseRecOn with
  | nil => rfl
  | append_singleton order v ih =>
      obtain ⟨horder, -, hnew⟩ := List.nodup_append.1 h
      have hv : v ∉ (g.depthsIn order).keys := by
        rw [ih horder]
        exact fun hmem => hnew v hmem v (List.mem_singleton_self v) rfl
      rw [depthsIn_concat, OrderedMap.keys_upsert, if_neg hv, ih horder]

-- ====================================================== leaving order

theorem nodup_leavingOrder (g : Graph) : g.leavingOrder.Nodup :=
  List.nodup_reverse.2 (nodup_left g)

/-- The search leaves what can be reached, and nothing else. -/
theorem mem_leavingOrder_iff {v : String} :
    v ∈ g.leavingOrder ↔ g.Reachable v := by
  unfold leavingOrder
  rw [List.mem_reverse]
  constructor
  · intro hv
    refine (Search.reached_search g).reachable v ?_
    rw [seen_search]
    exact hv
  · exact left_of_reachable

/-- There is one length for each name, listed in the order of leaving. -/
theorem keys_depths (g : Graph) : g.depths.keys = g.leavingOrder := by
  rw [depths_eq_depthsIn]
  exact keys_depthsIn g.nodup_leavingOrder

theorem nodup_keys_depths (g : Graph) : g.depths.keys.Nodup := by
  rw [keys_depths]
  exact g.nodup_leavingOrder

theorem mem_keys_depths_iff {v : String} :
    v ∈ g.depths.keys ↔ g.Reachable v := by
  rw [keys_depths]
  exact mem_leavingOrder_iff

/-- What was left before a name stands before it in the order. -/
theorem LeftBefore.mem_of_leavingOrder {u w : String} {order : List String}
    (h : g.LeftBefore w u) (hstart : order ++ [u] <+: g.leavingOrder) :
    w ∈ order := by
  obtain ⟨rest, ⟨front, hsplit⟩, hw⟩ := h
  obtain ⟨later, hlater⟩ := hstart
  have horder : g.leavingOrder = rest.reverse ++ u :: front.reverse := by
    unfold leavingOrder
    rw [← hsplit]
    simp
  have hnodup := nodup_leavingOrder g
  rw [horder] at hnodup
  obtain ⟨-, hfront, hrest⟩ := List.nodup_append.1 hnodup
  have hsame : rest.reverse ++ u :: front.reverse = order ++ u :: later := by
    rw [← horder, ← hlater]
    simp
  have heq : rest.reverse = order :=
    ((List.append_cons_inj_of_notMem
      (fun hu => hrest u hu u (List.mem_cons_self ..) rfl)
      (List.nodup_cons.1 hfront).1).1 hsame).1
  rw [← heq]
  exact List.mem_reverse.2 hw

-- ====================================================== without cycles

/-- No closed walk can be reached. -/
def Acyclic (g : Graph) : Prop :=
  ¬ ∃ walk, g.IsClosedWalk walk ∧ ∀ v ∈ walk, g.Reachable v

/-- A graph is acyclic if the search finds no cycle in it. -/
theorem acyclic_of_findCycles_eq_nil (h : g.findCycles = []) : g.Acyclic := by
  intro hclosed
  obtain ⟨walk, hwalk, hreach⟩ := hclosed
  obtain ⟨u, w, loop, hback, -⟩ := hwalk.exists_backLoop hreach
  have hmem := hback.mem_findCycles
  rw [h] at hmem
  cases hmem

/-- Every target was left before: no edge closes a loop. -/
theorem Acyclic.leftBefore (h : g.Acyclic) {u w : String} (hu : g.Reachable u)
    (hlink : g.Links u w) : g.LeftBefore w u := by
  rcases leftBefore_or_loop hu hlink with hbefore | ⟨loop, -, hback⟩
  · exact hbefore
  · obtain ⟨rest, rfl⟩ := List.head?_eq_some_iff.1 hback.head?
    refine absurd ⟨_, hback.isCycle.isClosedWalk, fun v hv => ?_⟩ h
    rcases List.mem_append.1 hv with hv | hv
    · exact hback.reachable hv
    · rw [List.mem_singleton.1 hv]
      exact hback.reachable (List.mem_cons_self ..)

/-- At every moment the lengths known are those of the longest walks. -/
theorem Acyclic.isGreatest_depthsIn (h : g.Acyclic) {order : List String}
    (hstart : order <+: g.leavingOrder) {v : String} {d : Nat}
    (hd : (g.depthsIn order).find? v = some d) :
    IsGreatest {n | g.HasWalk v n} d := by
  induction order using List.reverseRecOn generalizing v d with
  | nil => cases hd
  | append_singleton order u ih =>
      have hbefore : order <+: g.leavingOrder :=
        (List.prefix_append order [u]).trans hstart
      rw [depthsIn_concat, OrderedMap.find?_upsert] at hd
      by_cases hv : v = u
      · subst hv
        rw [if_pos rfl] at hd
        obtain rfl := Option.some.inj hd
        obtain ⟨hmem, hupper⟩ :=
          isGreatest_depthOver (g.depthsIn order) (g.targets v)
        constructor
        · rcases hmem with hzero | ⟨w, hlink, d, hd, heq⟩
          · rw [hzero]
            exact g.hasWalk_zero v
          · rw [heq]
            exact hasWalk_succ_iff.2 ⟨w, hlink, (ih hbefore hd).1⟩
        · intro n hn
          cases n with
          | zero => exact Nat.zero_le _
          | succ n =>
              obtain ⟨w, hlink, hwalk⟩ := hasWalk_succ_iff.1 hn
              have hreach : g.Reachable v :=
                mem_leavingOrder_iff.1 (hstart.subset (by simp))
              have hw : w ∈ (g.depthsIn order).keys := by
                rw [keys_depthsIn (g.nodup_leavingOrder.sublist hbefore.sublist)]
                exact (h.leftBefore hreach hlink).mem_of_leavingOrder hstart
              obtain ⟨d, hd⟩ := OrderedMap.mem_keys_iff.1 hw
              have hle : n ≤ d := (ih hbefore hd).2 hwalk
              exact (Nat.succ_le_succ hle).trans
                (hupper (.inr ⟨w, hlink, d, hd, rfl⟩))
      · rw [if_neg hv] at hd
        exact ih hbefore hd

theorem Acyclic.isGreatest_depths (h : g.Acyclic) {v : String} {d : Nat}
    (hd : g.depths.find? v = some d) : IsGreatest {n | g.HasWalk v n} d := by
  rw [depths_eq_depthsIn] at hd
  exact h.isGreatest_depthsIn (List.prefix_refl _) hd

/-- The greatest length is that of the longest walk of all. -/
theorem Acyclic.isGreatest_values (h : g.Acyclic) :
    IsGreatest (insert 0 {n | ∃ v, g.Reachable v ∧ g.HasWalk v n})
      (g.depths.values.foldl max 0) := by
  obtain ⟨hmem, hupper⟩ := isGreatest_foldl_max g.depths.values
  constructor
  · rcases hmem with hzero | hvalue
    · exact .inl hzero
    · obtain ⟨v, hv⟩ := (OrderedMap.mem_values_iff g.nodup_keys_depths).1 hvalue
      have hreach : g.Reachable v :=
        mem_keys_depths_iff.1 (OrderedMap.mem_keys_iff.2 ⟨_, hv⟩)
      exact .inr ⟨v, hreach, (h.isGreatest_depths hv).1⟩
  · intro n hn
    rcases hn with rfl | ⟨v, hreach, hwalk⟩
    · exact Nat.zero_le _
    · obtain ⟨d, hd⟩ := OrderedMap.mem_keys_iff.1 (mem_keys_depths_iff.2 hreach)
      have hle : n ≤ d := (h.isGreatest_depths hd).2 hwalk
      exact hle.trans (hupper (.inr
        ((OrderedMap.mem_values_iff g.nodup_keys_depths).2 ⟨v, hd⟩)))

/-- Without cycles, the lengths are those of the longest walks from the
names that can be reached, each listed once, and the greatest of them is
what a report gives as the length of the longest chain. -/
theorem depths_longest (h : g.Acyclic) :
    g.depths.keys.Nodup ∧
    (∀ v, v ∈ g.depths.keys ↔ g.Reachable v) ∧
    (∀ v d, g.depths.find? v = some d → IsGreatest {n | g.HasWalk v n} d) ∧
    ∀ (p : Project) (top : Int), p.itsGraph = g →
      IsGreatest (insert 0 {n | ∃ v, g.Reachable v ∧ g.HasWalk v n})
        (p.report top).complexity.maxDepth := by
  refine ⟨g.nodup_keys_depths, fun v => mem_keys_depths_iff,
    fun v d hd => h.isGreatest_depths hd, fun p top hp => ?_⟩
  show IsGreatest _ (p.itsGraph.depths.values.foldl max 0)
  rw [hp]
  exact h.isGreatest_values

/-- Three files and one that is no node. Over `c` the way from `a` to `b`
is longer than over the edges that join them. -/
def shortcut : Graph where
  nodes := ⟨[("a", ⟨"a", 3, 0⟩), ("b", ⟨"b", 1, 0⟩), ("c", ⟨"c", 1, 0⟩)]⟩
  edges := ⟨[("a", [⟨"a", "b", .importing⟩, ⟨"a", "b", .importing⟩,
      ⟨"a", "c", .importing⟩]),
    ("b", [⟨"b", "outside", .importing⟩]), ("c", [⟨"c", "b", .importing⟩])]⟩
  dependents := .empty
  cycles := []

theorem depths_longest_shortcut :
    shortcut.Acyclic ∧ shortcut.depths.keys = ["outside", "b", "c", "a"] ∧
      IsGreatest {n | shortcut.HasWalk "a" n} 3 := by
  have hacyclic : shortcut.Acyclic :=
    acyclic_of_findCycles_eq_nil (by cbv)
  have hlongest := (depths_longest hacyclic).2.2.1
  exact ⟨hacyclic, by cbv, hlongest "a" 3 (by cbv)⟩

end Graph

end ModuleAtlas
