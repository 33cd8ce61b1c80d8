/-
The first way to a name.

# What it is

Stand before a list of choices, with a list of names already passed. A
choice is open if it leads to the goal without touching what was passed.
Take the first open choice; its targets are the next choices, and it is
now passed itself. Going on like this from the nodes of the graph, with
nothing passed, gives the first way to the goal (`IsFirstWay`): of all
ways that pass no name twice it is the first one in the order of the
nodes and of the edges.

The definition knows nothing of a search. It depends on the graph and
the goal alone, so there is at most one first way (`FirstWay.unique`).
A beginning of a first way is the first way to where it stops
(`FirstWay.upTo`), so the first ways together form a forest.
-/
import ModuleAtlas.Proofs.First
import ModuleAtlas.Proofs.Graph.Walk

namespace ModuleAtlas

-- ========================================================== first ways

namespace Graph

variable {g : Graph}

/-- The first way to `v`: on each level the first choice that leads to
`v` past the levels above. -/
inductive FirstWay (g : Graph) (v : String) :
    (passed choices way : List String) → Prop where
  | arrive {passed choices : List String}
      (hv : IsFirst (g.LeadsPast passed · v) choices v) :
      FirstWay g v passed choices [v]
  | onward {passed choices way : List String} {u : String}
      (hu : IsFirst (g.LeadsPast passed · v) choices u)
      (hway : FirstWay g v (u :: passed) (g.targets u) way) :
      FirstWay g v passed choices (u :: way)

/-- The first way to `v` from the nodes of the graph. -/
def IsFirstWay (g : Graph) (v : String) (way : List String) : Prop :=
  FirstWay g v [] g.nodes.keys way

namespace FirstWay

variable {passed choices way way' : List String} {u v x : String}

theorem getLast? (h : FirstWay g v passed choices way) :
    way.getLast? = some v := by
  induction h with
  | arrive => rfl
  | onward _ _ ih => rw [List.getLast?_cons, ih, Option.getD_some]

/-- A first way keeps off what was passed before it. -/
theorem not_mem_passed (h : FirstWay g v passed choices way) (hx : x ∈ way) :
    x ∉ passed := by
  induction h with
  | arrive hv =>
      rw [List.mem_singleton.1 hx]
      exact hv.holds.target_not_mem
  | onward hu _ ih =>
      rcases List.mem_cons.1 hx with rfl | hx
      · exact hu.holds.source_not_mem
      · exact fun hp => ih hx (List.mem_cons_of_mem _ hp)

theorem nodup (h : FirstWay g v passed choices way) : way.Nodup := by
  induction h with
  | arrive => exact List.nodup_cons.2 ⟨List.not_mem_nil, List.nodup_nil⟩
  | onward _ hway ih =>
      exact List.nodup_cons.2
        ⟨fun hu => hway.not_mem_passed hu (List.mem_cons_self ..), ih⟩

/-- A first way starts with one of its choices. -/
theorem head_mem_choices (h : FirstWay g v passed choices (u :: way)) :
    u ∈ choices := by
  cases h with
  | arrive hv => exact hv.mem
  | onward hu => exact hu.mem

theorem isChain (h : FirstWay g v passed choices way) :
    way.IsChain g.Links := by
  induction h with
  | arrive => exact List.isChain_singleton _
  | @onward _ _ way u _ hway ih =>
      cases way with
      | nil => exact List.isChain_singleton _
      | cons w way => exact List.isChain_cons_cons.2 ⟨hway.head_mem_choices, ih⟩

/-- Every name on a first way leads on to its end. -/
theorem leadsPast (h : FirstWay g v passed choices way) (hx : x ∈ way) :
    g.LeadsPast passed x v := by
  induction h with
  | arrive hv =>
      rw [List.mem_singleton.1 hx]
      exact hv.holds
  | onward hu _ ih =>
      rcases List.mem_cons.1 hx with rfl | hx
      · exact hu.holds
      · exact (ih hx).mono fun y hy => List.mem_cons_of_mem _ hy

/-- The start of a first way leads to every name on it. -/
theorem leadsPast_of_head (h : FirstWay g v passed choices (u :: way))
    (hx : x ∈ u :: way) : g.LeadsPast passed u x := by
  induction way generalizing passed choices u with
  | nil =>
      rw [List.mem_singleton.1 hx]
      exact .here (h.not_mem_passed (List.mem_cons_self ..))
  | cons w way ih =>
      have hu := h.not_mem_passed (List.mem_cons_self ..)
      rcases List.mem_cons.1 hx with rfl | hx
      · exact .here hu
      · cases h with
        | onward _ hway =>
            exact .via hu hway.head_mem_choices
              ((ih hway hx).mono fun y hy => List.mem_cons_of_mem _ hy)

/-- There is at most one first way. -/
theorem unique (h : FirstWay g v passed choices way)
    (h' : FirstWay g v passed choices way') : way = way' := by
  -- nothing goes on behind the goal: from there on, the goal is passed
  have hstop : ∀ {passed choices way : List String},
      ¬ FirstWay g v (v :: passed) choices way := by
    intro passed choices way hway
    exact hway.not_mem_passed (List.mem_of_getLast? hway.getLast?)
      (List.mem_cons_self ..)
  induction h generalizing way' with
  | arrive hv =>
      cases h' with
      | arrive => rfl
      | onward hu hway =>
          obtain rfl := hv.unique hu
          exact absurd hway hstop
  | onward hu hway ih =>
      cases h' with
      | arrive hv =>
          obtain rfl := hu.unique hv
          exact absurd hway hstop
      | onward hu' hway' =>
          obtain rfl := hu.unique hu'
          rw [ih hway']

/-- A first way up to a name on it is the first way to that name. -/
theorem upTo {front back : List String}
    (h : FirstWay g v passed choices (front ++ x :: back)) :
    FirstWay g x passed choices (front ++ [x]) := by
  have hx := h.leadsPast (x := x) (by simp)
  induction front generalizing passed choices with
  | nil =>
      have hfirst : IsFirst (g.LeadsPast passed · v) choices x := by
        cases h with
        | arrive hv => exact hv
        | onward hu => exact hu
      exact .arrive
        (hfirst.narrow (.here hx.source_not_mem) fun y hy => hy.trans hx)
  | cons u front ih =>
      have hu := h.leadsPast_of_head (x := x) (by simp)
      cases hway : front ++ x :: back with
      | nil => simp at hway
      | cons w way =>
          rw [List.cons_append, hway] at h
          cases h with
          | onward hfirst hrest =>
              rw [← hway] at hrest
              have hx' := hrest.leadsPast (x := x) (by simp)
              exact .onward (hfirst.narrow hu fun y hy => hy.trans hx)
                (ih hrest hx')

end FirstWay

/-- The names on a first way can be reached. -/
theorem IsFirstWay.reachable {v x : String} {way : List String}
    (h : g.IsFirstWay v way) (hx : x ∈ way) : g.Reachable x := by
  cases way with
  | nil => cases hx
  | cons u way =>
      exact ⟨u, FirstWay.head_mem_choices h,
        (FirstWay.leadsPast_of_head h hx).reaches⟩

end Graph

end ModuleAtlas
