/-
Loops that one edge closes.

Let an edge lead from `u` back to a name `w` on the first way to `u`.
Together with the part of the way from `w` on it is a loop (`BackLoop`),
and these are the loops that a depth-first search meets. Each is a cycle
(`BackLoop.isCycle`). It is determined by its closing edge, since there
is one first way to `u`, and even by its set of names
(`BackLoop.eq_of_same_names`): each end lies on the first way to the
other one, so the two ways are the same.
-/
import ModuleAtlas.Proofs.Graph.FirstWay

namespace ModuleAtlas.Graph

variable {g : Graph}

/-- The edge from `u` to `w` closes this loop: `w` lies on the first way
to `u`, and the loop is that way from `w` on. -/
def BackLoop (g : Graph) (u w : String) (loop : List String) : Prop :=
  ∃ front, g.IsFirstWay u (front ++ loop) ∧ loop.head? = some w ∧ g.Links u w

namespace BackLoop

variable {u u' w w' x : String} {loop loop' : List String}

theorem ne_nil (h : g.BackLoop u w loop) : loop ≠ [] := by
  obtain ⟨front, _, hhead, _⟩ := h
  intro hnil
  rw [hnil] at hhead
  cases hhead

theorem head? (h : g.BackLoop u w loop) : loop.head? = some w := by
  obtain ⟨_, _, hhead, _⟩ := h
  exact hhead

theorem getLast? (h : g.BackLoop u w loop) : loop.getLast? = some u := by
  obtain ⟨front, hway, _, _⟩ := id h
  have hlast := FirstWay.getLast? hway
  rwa [List.getLast?_append_of_ne_nil _ h.ne_nil] at hlast

/-- Its names are distinct, and each is joined to the next one. -/
theorem isCycle (h : g.BackLoop u w loop) : g.IsCycle loop := by
  obtain ⟨front, hway, hhead, hlink⟩ := id h
  refine ⟨h.ne_nil, ?_, ?_, ?_⟩
  · exact (List.nodup_append.1 (FirstWay.nodup hway)).2.1
  · exact List.IsChain.right_of_append (FirstWay.isChain hway)
  · intro u₁ hu₁ w₁ hw₁
    rw [h.getLast?, Option.mem_some_iff] at hu₁
    rw [hhead, Option.mem_some_iff] at hw₁
    rwa [← hu₁, ← hw₁]

theorem reachable (h : g.BackLoop u w loop) (hx : x ∈ loop) :
    g.Reachable x := by
  obtain ⟨front, hway, _, _⟩ := h
  exact hway.reachable (List.mem_append_right _ hx)

/-- Two ends of one way are the same if each holds the first name of
the other one. -/
theorem tail_unique {front front' : List String} (hn : (front ++ loop).Nodup)
    (hsame : front ++ loop = front' ++ loop') (h : loop.head? = some w)
    (h' : loop'.head? = some w') (hw : w ∈ loop') (hw' : w' ∈ loop) :
    loop = loop' := by
  have hfront := (List.nodup_append.1 hn).2.2
  rw [hsame] at hn
  have hfront' := (List.nodup_append.1 hn).2.2
  rcases List.append_eq_append_iff.1 hsame with
    ⟨mid, hmid, htail⟩ | ⟨mid, hmid, htail⟩
  · cases mid with
    | nil => simpa using htail
    | cons m mid =>
        obtain rfl : m = w := by
          rw [htail, List.cons_append, List.head?_cons] at h
          exact Option.some.inj h
        exact absurd rfl (hfront' m (by rw [hmid]; simp) m hw)
  · cases mid with
    | nil => simpa using htail.symm
    | cons m mid =>
        obtain rfl : m = w' := by
          rw [htail, List.cons_append, List.head?_cons] at h'
          exact Option.some.inj h'
        exact absurd rfl (hfront m (by rw [hmid]; simp) m hw')

/-- A closing edge closes one loop. -/
theorem unique (h : g.BackLoop u w loop) (h' : g.BackLoop u w loop') :
    loop = loop' := by
  obtain ⟨front, hway, hhead, _⟩ := h
  obtain ⟨front', hway', hhead', _⟩ := h'
  exact tail_unique (FirstWay.nodup hway) (FirstWay.unique hway hway')
    hhead hhead' (List.mem_of_head? hhead') (List.mem_of_head? hhead)

/-- The first way to a name on the loop is a beginning of the way that
the loop lies on. -/
theorem firstWay_begins {front way : List String}
    (hway : g.IsFirstWay u (front ++ loop)) (hx : x ∈ loop)
    (hway' : g.IsFirstWay x way) : way <+: front ++ loop := by
  obtain ⟨before, after, hsplit⟩ :=
    List.append_of_mem (List.mem_append_right front hx)
  rw [hsplit] at hway ⊢
  rw [FirstWay.unique hway' (FirstWay.upTo hway)]
  exact ⟨after, by simp⟩

/-- A loop is determined by the set of its names. -/
theorem eq_of_same_names (h : g.BackLoop u w loop)
    (h' : g.BackLoop u' w' loop') (hsame : ∀ x, x ∈ loop ↔ x ∈ loop') :
    loop = loop' := by
  obtain ⟨front, hway, hhead, _⟩ := id h
  obtain ⟨front', hway', hhead', _⟩ := id h'
  -- each innermost name lies on the other loop, so the two ways are the same
  have hu := List.mem_of_getLast? h.getLast?
  have hu' := List.mem_of_getLast? h'.getLast?
  have hpre := firstWay_begins hway' ((hsame u).1 hu) hway
  have hpre' := firstWay_begins hway ((hsame u').2 hu') hway'
  have hways := hpre.eq_of_length_le hpre'.length_le
  exact tail_unique (FirstWay.nodup hway) hways hhead hhead'
    ((hsame w).1 (List.mem_of_head? hhead))
    ((hsame w').2 (List.mem_of_head? hhead'))

end BackLoop

end ModuleAtlas.Graph
