/-
Trees that can be read to their end.

In a clear tree no node is marked, and each can tell its roles apart.
What is below a node of such a tree is clear as well, so no question that
the reading of the tree comes to fails (`Clear.covers`).
-/
import ModuleAtlas.Proofs.Syntax.Address
import ModuleAtlas.Proofs.Syntax.Questions

namespace ModuleAtlas.Syntax

namespace Node

variable {n c : Node} {role : Role} {kind : Kind}

-- =========================================================== clear trees

/-- No node of the tree is marked, and each can tell its roles apart. -/
def Clear (n : Node) : Prop :=
  ∀ a m, n.sub? a = some m → m.label.mark = .sound ∧ m.label.trouble = none

/-- The first child in a role. -/
def inRole (n : Node) (role : Role) : Option Node :=
  n.children.find? (·.label.role == some role)

namespace Clear

theorem sub? {a : Address} (h : n.Clear) (hc : n.sub? a = some c) : c.Clear := by
  intro b m hm
  refine h (a ++ b) m ?_
  rw [sub?_append, hc]
  exact hm

theorem of_mem_children (h : n.Clear) (hc : c ∈ n.children) : c.Clear := by
  intro a m hm
  obtain ⟨i, hi⟩ := List.getElem?_of_mem hc
  exact h (i :: a) m (sub?_cons_eq_some_iff.2 ⟨c, hi, hm⟩)

theorem of_firstOfKind (h : n.Clear) (hc : n.firstOfKind kind = some c) :
    c.Clear :=
  h.of_mem_children (List.mem_of_find?_eq_some hc)

theorem of_inRole (h : n.Clear) (hc : n.inRole role = some c) : c.Clear :=
  h.of_mem_children (List.mem_of_find?_eq_some hc)

theorem child?_eq (h : n.Clear) (role : Role) :
    n.child? role = .ok (n.inRole role) := by
  unfold child?
  rw [(h [] n rfl).2]
  rfl

theorem child?_eq_some_iff (h : n.Clear) :
    n.child? role = .ok (some c) ↔ n.inRole role = some c := by
  rw [h.child?_eq, Except.ok.injEq]

/-- A tree is clear if its top node is and the trees below that are. -/
theorem node_iff {l : Label} {cs : List Node} :
    (node l cs).Clear ↔
      (l.mark = .sound ∧ l.trouble = none) ∧ ∀ c ∈ cs, c.Clear := by
  constructor
  · intro h
    exact ⟨h [] _ rfl, fun c hc => h.of_mem_children hc⟩
  · intro h a m hm
    obtain ⟨hl, hcs⟩ := h
    cases a with
    | nil =>
        obtain rfl := Option.some.inj hm
        exact hl
    | cons i a =>
        obtain ⟨c, hi, hm⟩ := sub?_cons_eq_some_iff.1 hm
        exact hcs c (List.mem_of_getElem? hi) a m hm

/-- Nothing that is asked in a clear tree fails. -/
theorem covers : Covers child? Clear fun _ => False where
  child h hc := h.of_mem_children hc
  answer h hc := h.of_inRole (h.child?_eq_some_iff.1 hc)
  question role h text he := by
    rw [h.child?_eq] at he
    cases he

end Clear

end Node

end ModuleAtlas.Syntax
