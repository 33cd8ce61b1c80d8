/-
Walking a syntax tree.

A walk keeps a stack of the nodes it has still to look at. It looks at
the top one and puts its children in its place, the last one first, so
that the first one is next: a node is looked at before what is below it,
and that before what is behind it. What a walk is after decides which
children are worth a look.
-/
import ModuleAtlas.Syntax.Node

namespace ModuleAtlas.Syntax

/-- A node that is looked at, and the node that it is a child of. -/
structure Visit where
  parent : Option Node
  node : Node

namespace Visit

/-- The root of a tree is the child of no node. -/
def ofRoot (root : Node) : Visit := ⟨none, root⟩

/-- The children that are worth a look. -/
def below (worth : Node → Node → Bool) (v : Visit) : List Visit :=
  (v.node.children.filter (worth v.node)).map fun c => ⟨some v.node, c⟩

/-- The stack with these on top of it, put there from the last one on. -/
def push (visits stack : List Visit) : List Visit :=
  visits.reverse.foldl (fun stack v => v :: stack) stack

/-- The number of nodes in the trees on a stack. -/
def load (stack : List Visit) : Nat :=
  Node.sizeOfAll (stack.map Visit.node)

theorem push_eq (visits stack : List Visit) : push visits stack = visits ++ stack := by
  unfold push
  rw [List.foldl_reverse]
  induction visits with
  | nil => rfl
  | cons v visits ih => rw [List.foldr_cons, ih, List.cons_append]

theorem sizeOfAll_append (ns ms : List Node) :
    Node.sizeOfAll (ns ++ ms) = Node.sizeOfAll ns + Node.sizeOfAll ms := by
  induction ns with
  | nil => simp [Node.sizeOfAll]
  | cons n ns ih =>
    rw [List.cons_append, Node.sizeOfAll, ih, Node.sizeOfAll, Nat.add_assoc]

theorem sizeOfAll_filter_le (p : Node → Bool) (ns : List Node) :
    Node.sizeOfAll (ns.filter p) ≤ Node.sizeOfAll ns := by
  induction ns with
  | nil => exact Nat.le_refl _
  | cons n ns ih =>
    rw [List.filter_cons]
    split
    · simp only [Node.sizeOfAll]
      omega
    · simp only [Node.sizeOfAll]
      omega

/-- Each look leaves less to look at. -/
theorem load_push_below_lt (worth : Node → Node → Bool) (v : Visit) (stack : List Visit) :
    load (push (v.below worth) stack) < load (v :: stack) := by
  have hbelow : (v.below worth).map Visit.node = v.node.children.filter (worth v.node) := by
    simp [below, Function.comp_def]
  have hle := sizeOfAll_filter_le (worth v.node) v.node.children
  have hsize : v.node.size = Node.sizeOfAll v.node.children + 1 := by
    cases v.node with
    | node l cs => rfl
  rw [push_eq]
  unfold load
  rw [List.map_append, sizeOfAll_append, hbelow, List.map_cons, Node.sizeOfAll, hsize]
  omega

end Visit

/-- Looks at the nodes on the stack and below them. -/
def walk {σ : Type} (look : σ → Visit → σ) (worth : Node → Node → Bool) :
    (stack : List Visit) → σ → σ
  | [], state => state
  | v :: stack, state => walk look worth (Visit.push (v.below worth) stack) (look state v)
termination_by stack => Visit.load stack
decreasing_by exact Visit.load_push_below_lt worth v stack

end ModuleAtlas.Syntax
