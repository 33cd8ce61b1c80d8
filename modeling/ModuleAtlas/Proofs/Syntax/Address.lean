/-
Where a walk comes by, and when.

# Addresses

A node of a tree is told from all others by its address, the numbers of
the children on the way down to it: equal trees at two addresses are two
nodes. The order of addresses is that of the text, with a node before
what is below it.

# The route

A walk keeps a stack, but what it does is said without one. It goes down
by recursion (`tour`, `walk_eq_foldl`), and so looks once at each address
on its way, in order (`tour_eq_filterMap_route`, `pairwise_route`). If
every child is worth a look, it leaves out no address
(`mem_addresses_iff`).
-/
import ModuleAtlas.Syntax.Walk

namespace ModuleAtlas.Syntax

/-- The way down to a node: the numbers of the children to take. -/
abbrev Address := List Nat

namespace Node

/-- The node at an address. -/
def sub? : Node → Address → Option Node
  | n, [] => some n
  | n, i :: address => n.children[i]?.bind (sub? · address)

theorem sub?_nil (n : Node) : n.sub? [] = some n := rfl

theorem sub?_cons_eq_some_iff {n m : Node} {i : Nat} {a : Address} :
    n.sub? (i :: a) = some m ↔
      ∃ c, n.children[i]? = some c ∧ c.sub? a = some m := by
  rw [sub?, Option.bind_eq_some_iff]

theorem sub?_append (n : Node) (a b : Address) :
    n.sub? (a ++ b) = (n.sub? a).bind (·.sub? b) := by
  induction a generalizing n with
  | nil => rfl
  | cons i a ih =>
      rw [List.cons_append, sub?, sub?]
      cases n.children[i]? with
      | none => rfl
      | some c => exact ih c

/-- What holds of a node if it holds of its children holds of every
node. -/
theorem induction {motive : Node → Prop}
    (h : ∀ l cs, (∀ c ∈ cs, motive c) → motive (node l cs)) :
    ∀ n, motive n
  | node l cs => h l cs fun c _ => induction h c

-- ============================================================== the tour

mutual

/-- The nodes that a walk looks at, gone down to by recursion: a node,
and then the children that are worth it, in order. -/
def tour (worth : Node → Node → Bool) (parent : Option Node) : Node → List Visit
  | n@(node _ cs) => ⟨parent, n⟩ :: tourOfAll worth n cs

def tourOfAll (worth : Node → Node → Bool) (parent : Node) : List Node → List Visit
  | [] => []
  | c :: cs =>
    if worth parent c then tour worth (some parent) c ++ tourOfAll worth parent cs
    else tourOfAll worth parent cs

end

variable {worth : Node → Node → Bool}

theorem tourOfAll_eq (parent : Node) (cs : List Node) :
    tourOfAll worth parent cs =
      (cs.filter (worth parent)).flatMap (tour worth (some parent)) := by
  induction cs with
  | nil => rfl
  | cons c cs ih =>
      rw [tourOfAll, List.filter_cons, ih]
      split
      · rw [List.flatMap_cons]
      · rfl

/-- A tour looks at a node and then tours what is below it. -/
theorem tour_eq (v : Visit) :
    tour worth v.parent v.node =
      v :: (v.below worth).flatMap fun w => tour worth w.parent w.node := by
  obtain ⟨parent, l, cs⟩ := v
  rw [tour, tourOfAll_eq, Visit.below, List.flatMap_map]
  rfl

end Node

/-- A walk does with its stack what a tour does by recursion. -/
theorem walk_eq_foldl {σ : Type} (look : σ → Visit → σ)
    (worth : Node → Node → Bool) (stack : List Visit) (state : σ) :
    walk look worth stack state =
      (stack.flatMap fun v => Node.tour worth v.parent v.node).foldl look state := by
  induction stack, state using walk.induct look worth with
  | case1 state => rw [walk]; rfl
  | case2 state v stack ih =>
      rw [walk, ih, Visit.push_eq, List.flatMap_append, List.flatMap_cons,
        Node.tour_eq, List.cons_append, List.foldl_cons]

theorem walk_root {σ : Type} (look : σ → Visit → σ)
    (worth : Node → Node → Bool) (root : Node) (state : σ) :
    walk look worth [.ofRoot root] state =
      (root.tour worth none).foldl look state := by
  rw [walk_eq_foldl, List.flatMap_singleton]
  rfl

-- ============================================================= the route

namespace Visit

/-- The visit to the node at an address below this one. -/
def at? : Visit → Address → Option Visit
  | v, [] => some v
  | v, i :: address => v.node.children[i]?.bind fun c => at? ⟨some v.node, c⟩ address

theorem map_node_at? (v : Visit) (a : Address) :
    (v.at? a).map node = v.node.sub? a := by
  induction a generalizing v with
  | nil => rfl
  | cons i a ih =>
      rw [at?, Node.sub?, Option.map_bind]
      cases v.node.children[i]? with
      | none => rfl
      | some c => exact ih ⟨some v.node, c⟩

end Visit

namespace Node

mutual

/-- The addresses that a walk comes by. -/
def route (worth : Node → Node → Bool) : Node → List Address
  | n@(node _ cs) => [] :: routeFrom worth n 0 cs

/-- The same for the children of a node, numbered from `k`. -/
def routeFrom (worth : Node → Node → Bool) (parent : Node) : Nat → List Node → List Address
  | _, [] => []
  | k, c :: cs =>
    if worth parent c then (route worth c).map (k :: ·) ++ routeFrom worth parent (k + 1) cs
    else routeFrom worth parent (k + 1) cs

end

variable {worth : Node → Node → Bool} {n m : Node} {a : Address} {i k : Nat}

/-- Below a node, a tour comes by the addresses of its route if it does
so below the children. -/
theorem tourOfAll_eq_filterMap {v : Visit} {cs : List Node}
    (hat : ∀ i, v.node.children[k + i]? = cs[i]?)
    (htour : ∀ c ∈ cs, ∀ parent, tour worth parent c =
      (route worth c).filterMap (Visit.at? ⟨parent, c⟩)) :
    tourOfAll worth v.node cs = (routeFrom worth v.node k cs).filterMap v.at? := by
  induction cs generalizing k with
  | nil => rfl
  | cons c cs ih =>
      have hnext : ∀ i, v.node.children[k + 1 + i]? = cs[i]? := by
        intro i
        rw [show k + 1 + i = k + (i + 1) by omega, hat, List.getElem?_cons_succ]
      have hc : v.node.children[k]? = some c := hat 0
      have hbelow : v.at? ∘ (k :: ·) = Visit.at? ⟨some v.node, c⟩ := by
        funext a
        show v.node.children[k]?.bind _ = _
        rw [hc]
        rfl
      rw [List.forall_mem_cons] at htour
      rw [tourOfAll, routeFrom, ih hnext htour.2, htour.1]
      split
      · rw [List.filterMap_append, List.filterMap_map, hbelow]
      · rfl

/-- A tour comes by the addresses of its route. -/
theorem tour_eq_filterMap_route (worth : Node → Node → Bool) (n : Node) :
    ∀ parent, tour worth parent n =
      (route worth n).filterMap (Visit.at? ⟨parent, n⟩) := by
  induction n using induction with
  | h l cs ih =>
      intro parent
      rw [tour, route, List.filterMap_cons]
      refine congrArg (_ :: ·) ?_
      exact tourOfAll_eq_filterMap (v := ⟨parent, node l cs⟩)
        (fun i => by rw [Nat.zero_add]; rfl) ih

theorem mem_routeFrom_iff {parent : Node} {cs : List Node} :
    a ∈ routeFrom worth parent k cs ↔
      ∃ i c b, cs[i]? = some c ∧ worth parent c = true ∧ b ∈ route worth c ∧
        a = (k + i) :: b := by
  induction cs generalizing k with
  | nil => simp [routeFrom]
  | cons c cs ih =>
      have hsplit : a ∈ routeFrom worth parent k (c :: cs) ↔
          (worth parent c = true ∧ ∃ b ∈ route worth c, k :: b = a) ∨
            a ∈ routeFrom worth parent (k + 1) cs := by
        rw [routeFrom]
        split
        · next hworth => simp [hworth]
        · next hworth => simp [hworth]
      rw [hsplit, ih]
      constructor
      · intro h
        rcases h with ⟨hworth, b, hb, rfl⟩ | ⟨i, d, b, hd, hworth, hb, rfl⟩
        · exact ⟨0, c, b, rfl, hworth, hb, rfl⟩
        · exact ⟨i + 1, d, b, hd, hworth, hb, by rw [Nat.add_right_comm, Nat.add_assoc]⟩
      · intro h
        obtain ⟨i, d, b, hd, hworth, hb, rfl⟩ := h
        cases i with
        | zero =>
            obtain rfl := Option.some.inj hd
            exact .inl ⟨hworth, b, hb, rfl⟩
        | succ i =>
            exact .inr ⟨i, d, b, hd, hworth, hb, by rw [Nat.add_right_comm, Nat.add_assoc]⟩

theorem route_eq (n : Node) :
    route worth n = [] :: routeFrom worth n 0 n.children := by
  cases n with
  | node l cs => rw [route]; rfl

theorem nil_mem_route : [] ∈ route worth n := by
  rw [route_eq]
  exact List.mem_cons_self ..

/-- A route goes on below the children that are worth it. -/
theorem cons_mem_route_iff :
    i :: a ∈ route worth n ↔
      ∃ c, n.children[i]? = some c ∧ worth n c = true ∧ a ∈ route worth c := by
  rw [route_eq, List.mem_cons, mem_routeFrom_iff]
  constructor
  · intro h
    rcases h with h | ⟨j, c, b, hc, hworth, hb, h⟩
    · cases h
    · obtain ⟨rfl, rfl⟩ := List.cons.inj h
      rw [Nat.zero_add]
      exact ⟨c, hc, hworth, hb⟩
  · intro h
    obtain ⟨c, hc, hworth, ha⟩ := h
    exact .inr ⟨i, c, a, hc, hworth, ha, by rw [Nat.zero_add]⟩

/-- Below a node, a route is in order if it is so below the children. -/
theorem pairwise_routeFrom {parent : Node} {cs : List Node} (k : Nat)
    (h : ∀ c ∈ cs, (route worth c).Pairwise (· < ·)) :
    (routeFrom worth parent k cs).Pairwise (· < ·) := by
  induction cs generalizing k with
  | nil => exact .nil
  | cons c cs ih =>
      rw [List.forall_mem_cons] at h
      rw [routeFrom]
      split
      · rw [List.pairwise_append]
        refine ⟨List.pairwise_map.2 ?_, ih (k + 1) h.2, ?_⟩
        · exact h.1.imp fun hlt => List.cons_lt_cons_iff.2 (.inr ⟨rfl, hlt⟩)
        · intro a ha b hb
          obtain ⟨a, -, rfl⟩ := List.mem_map.1 ha
          obtain ⟨i, -, b, -, -, -, rfl⟩ := mem_routeFrom_iff.1 hb
          exact List.cons_lt_cons_iff.2 (.inl (by omega))
      · exact ih (k + 1) h.2

/-- A route comes by each address once, in order. -/
theorem pairwise_route (worth : Node → Node → Bool) (n : Node) :
    (route worth n).Pairwise (· < ·) := by
  induction n using induction with
  | h l cs ih =>
      rw [route, List.pairwise_cons]
      refine ⟨fun a ha => ?_, pairwise_routeFrom 0 ih⟩
      obtain ⟨i, -, b, -, -, -, rfl⟩ := mem_routeFrom_iff.1 ha
      exact List.nil_lt_cons ..

-- ========================================================= all addresses

/-- The addresses of a tree, in order. -/
def addresses (n : Node) : List Address :=
  n.route fun _ _ => true

theorem mem_addresses_iff : a ∈ n.addresses ↔ ∃ m, n.sub? a = some m := by
  unfold addresses
  induction a generalizing n with
  | nil => exact ⟨fun _ => ⟨n, rfl⟩, fun _ => nil_mem_route⟩
  | cons i a ih =>
      simp only [cons_mem_route_iff, ih, sub?_cons_eq_some_iff]
      constructor
      · intro h
        obtain ⟨c, hc, -, m, hm⟩ := h
        exact ⟨m, c, hc, hm⟩
      · intro h
        obtain ⟨m, c, hc, hm⟩ := h
        exact ⟨c, hc, trivial, m, hm⟩

theorem pairwise_addresses (n : Node) : n.addresses.Pairwise (· < ·) :=
  pairwise_route _ n

end Node

-- ========================================================= a single line

/-- The bytes of an ASCII text. -/
def lineOf (text : String) : Bytes := text.toList.map fun c => UInt8.ofNat c.toNat

/-- A sound node on the first line of a text. -/
def onLine (kind : Kind) (role : Option Role) (named : Bool) (start stop : Nat)
    (children : List Node) : Node :=
  .node ⟨kind, role, named, .sound, start, stop, ⟨0, start⟩, none⟩ children

end ModuleAtlas.Syntax
