/-
Parallel edges and kinds of edges.

# What does not count

Of the edges of a graph only the targets count, and of several edges to
the same target only the first. Thinned to these, and all of them made of
one kind (`Graph.thinned`), the graph has the same cycles in the same order
and the same lengths in the same order (`findCycles_and_depths_thinned`).

# Two searches side by side

The search of the graph and that of the thinned one have the same names on
the chain all the time, and the same names left (`Beside`). On each level,
the one has pending what the other has, each target once and none that was
looked at before. So both make the same step, unless the one looks at a
target again. Then it finds a name that was left, and passes over it, or
one of the chain, and closes a loop that it has met before: between two
looks from the same level, the chain is the same. The other search stands
still meanwhile (`Beside.step`).
-/
import ModuleAtlas.Proofs.First
import ModuleAtlas.Proofs.Graph.Depth

namespace ModuleAtlas

-- ============================================================== thinning

/-- Of the edges with the same target, the first. -/
def firstEdges (edges : List Edge) : List Edge :=
  edges.eraseDupsBy fun e first => e.target == first.target

/-- The edge, whatever its kind, as one that imports. -/
def Edge.asImport (e : Edge) : Edge :=
  { e with kind := .importing }

theorem map_target_firstEdges (edges : List Edge) :
    (firstEdges edges).map Edge.target = (edges.map Edge.target).eraseDups := by
  match edges with
  | [] => rfl
  | e :: edges =>
      have hothers : firstEdges (e :: edges) =
          e :: firstEdges (edges.filter fun e' => !e'.target == e.target) := by
        refine List.eraseDupsBy_cons.trans (congrArg (e :: firstEdges ·) ?_)
        exact List.filter_congr fun _ _ => Bool.decide_eq_false
      rw [hothers, List.map_cons, map_target_firstEdges, List.map_cons,
        List.eraseDups_cons, List.filter_map]
      rfl
termination_by edges.length
decreasing_by
  exact Nat.lt_succ_of_le (List.length_filter_le _ _)

namespace Graph

/-- The graph with the first edge to each target only, all of one kind. -/
def thinned (g : Graph) : Graph :=
  { g with
    edges := ⟨g.edges.entries.map fun (v, edges) =>
      (v, (firstEdges edges).map Edge.asImport)⟩ }

/-- The graphs have the same nodes, and `thin` has each target of a name
once, in the order in which the other first has it. -/
structure Thins (g thin : Graph) : Prop where
  nodes : thin.nodes.keys = g.nodes.keys
  targets : ∀ v, thin.targets v = (g.targets v).eraseDups

theorem thins_thinned (g : Graph) : g.Thins g.thinned := by
  refine ⟨rfl, fun v => ?_⟩
  have hfind : g.thinned.edges.find? v =
      (g.edges.find? v).map fun edges => (firstEdges edges).map Edge.asImport := by
    unfold thinned OrderedMap.find?
    dsimp only
    induction g.edges.entries with
    | nil => rfl
    | cons entry entries ih =>
        rw [List.map_cons, List.lookup_cons, List.lookup_cons, ih]
        cases v == entry.1 <;> rfl
  unfold targets edgesFrom
  rw [hfind]
  cases g.edges.find? v with
  | none => rfl
  | some edges =>
      rw [Option.map_some, Option.getD_some, Option.getD_some, ← map_target_firstEdges,
        List.map_map]
      rfl

-- ======================================================= distinct loops

/-- A loop that comes last is kept if none before it has its names. -/
theorem distinctLoops_concat (kept ls : List (List String)) (l : List String) :
    distinctLoops kept (ls ++ [l]) = distinctLoops kept ls ++
      if (kept ++ distinctLoops kept ls).any (sameNames l) then [] else [l] := by
  induction ls generalizing kept with
  | nil => simp [distinctLoops]
  | cons l' ls ih =>
      rw [List.cons_append, distinctLoops, distinctLoops]
      split
      · exact ih kept
      · have hany : ∀ xs : List (List String), (kept ++ l' :: xs).any (sameNames l) =
            (l' :: kept ++ xs).any (sameNames l) := by
          intro xs
          simp [Bool.or_left_comm]
        rw [ih, hany]
        rfl

theorem distinctLoops_concat_of_mem {ls : List (List String)} {l : List String}
    (h : l ∈ ls) : distinctLoops [] (ls ++ [l]) = distinctLoops [] ls := by
  obtain ⟨k, hk | hk, hsame⟩ := exists_sameNames_of_mem [] h
  · cases hk
  · have hany : ([] ++ distinctLoops [] ls).any (sameNames l) = true :=
      List.any_eq_true.2 ⟨k, hk, hsame⟩
    rw [distinctLoops_concat, if_pos hany, List.append_nil]

end Graph

namespace Search

open ModuleAtlas.Graph

variable {g thin : Graph} {s s' t : Search} {w : String} {rest : List String}

-- ========================================================= side by side

/-- The frame of the thinned search has the same name, and has pending what
is pending in the other, each target once and none of those in `past`. -/
def Thinned (f f' : Frame) : Prop :=
  f'.name = f.name ∧ ∃ past, f'.pending = (f.pending.removeAll past).eraseDups

/-- A loop is made of the names of the chain alone. -/
theorem loopFrom_congr {chain chain' : List Frame}
    (h : chain.map Frame.name = chain'.map Frame.name) (w : String) :
    loopFrom w chain = loopFrom w chain' := by
  unfold loopFrom
  rw [h]

theorem names_of_thinned {chain chain' : List Frame} (h : List.Forall₂ Thinned chain chain') :
    chain'.map Frame.name = chain.map Frame.name := by
  induction h with
  | nil => rfl
  | cons hf _ ih => rw [List.map_cons, List.map_cons, hf.1, ih]

/-- The searches have the same names on the chain and left the same ones in
the same order, and they met the same loops, up to repetition. -/
structure Beside (s s' : Search) : Prop where
  roots : s'.roots = s.roots
  chain : List.Forall₂ Thinned s.chain s'.chain
  left : s'.left = s.left
  loops : distinctLoops [] s'.loops.reverse = distinctLoops [] s.loops.reverse

/-- At a look, what is pending on a level of the one search is the next one
of the other, too, or has been looked at there before. -/
theorem Thinned.look {f f' : Frame} (h : Thinned f f') (hw : f.pending = w :: rest) :
    (∃ rest', f'.pending = w :: rest' ∧ Thinned ⟨f.name, rest⟩ ⟨f'.name, rest'⟩) ∨
      w ∉ f'.pending ∧ Thinned ⟨f.name, rest⟩ f' := by
  obtain ⟨hname, past, hpending⟩ := h
  rw [hw] at hpending
  by_cases hpast : w ∈ past
  · have hsame : (w :: rest).removeAll past = rest.removeAll past := by
      simp [List.removeAll, hpast]
    rw [hsame] at hpending
    refine .inr ⟨?_, hname, past, hpending⟩
    rw [hpending, List.mem_eraseDups]
    simp [List.removeAll, hpast]
  · have hnext : (w :: rest).removeAll past = w :: rest.removeAll past := by
      simp [List.removeAll, hpast]
    rw [hnext, List.eraseDups_cons] at hpending
    rw [← removeAll_concat] at hpending
    exact .inl ⟨_, hpending, hname, _, rfl⟩

namespace Beside

theorem chainNames (h : Beside s s') : s'.chainNames = s.chainNames :=
  names_of_thinned h.chain

theorem seen (h : Beside s s') : s'.seen = s.seen := by
  unfold Search.seen
  rw [h.chainNames, h.left]

/-- The thinned search looks at the same choice or, since it did before, at
none. -/
theorem look (h : Beside s s') (hw : pending s.roots s.chain = w :: rest) :
    (∃ rest', pending s'.roots s'.chain = w :: rest' ∧ Beside s.advance s'.advance) ∨
      ∃ f' outer', s'.chain = f' :: outer' ∧ w ∉ f'.pending ∧ Beside s.advance s' := by
  obtain ⟨unseen, roots, chain, left, loops⟩ := s
  obtain ⟨unseen', roots', chain', left', loops'⟩ := s'
  obtain ⟨rfl, hchain, rfl, hloops⟩ := h
  cases hchain with
  | nil =>
      obtain rfl : roots' = w :: rest := hw
      exact .inl ⟨rest, rfl, rfl, .nil, rfl, hloops⟩
  | @cons f f' outer outer' hf houter =>
      obtain ⟨name, pending⟩ := f
      obtain rfl : pending = w :: rest := hw
      rcases hf.look rfl with ⟨rest', hw', hrest⟩ | ⟨hpast, hrest⟩
      · refine .inl ⟨rest', hw', rfl, .cons ?_ houter, rfl, hloops⟩
        rw [hw']
        exact hrest
      · exact .inr ⟨f', outer', rfl, hpast, rfl, .cons hrest houter, rfl, hloops⟩

/-- Both searches enter the name. -/
theorem enter (ht : g.Thins thin) (h : Beside s s') (w : String) :
    Beside (s.enter g w) (s'.enter thin w) := by
  refine ⟨h.roots, .cons ⟨rfl, [], ?_⟩ h.chain, h.left, h.loops⟩
  rw [ht.targets]
  simp [List.removeAll]

/-- Both searches meet the loop. -/
theorem close (h : Beside s s') (l : List String) :
    Beside { s with loops := l :: s.loops } { s' with loops := l :: s'.loops } := by
  refine ⟨h.roots, h.chain, h.left, ?_⟩
  rw [List.reverse_cons, List.reverse_cons, distinctLoops_concat, distinctLoops_concat,
    h.loops]

/-- The one search meets a loop that the other has met before. -/
theorem closeAgain (h : Beside s s') {l : List String} (hl : l ∈ s'.loops) :
    Beside { s with loops := l :: s.loops } s' := by
  refine ⟨h.roots, h.chain, h.left, ?_⟩
  have hboth := (h.close l).loops
  rw [List.reverse_cons, distinctLoops_concat_of_mem (List.mem_reverse.2 hl)] at hboth
  exact hboth

theorem loopFrom_eq (h : Beside s s') (w : String) :
    loopFrom w s'.chain = loopFrom w s.chain :=
  loopFrom_congr h.chainNames w

/-- A choice that both are to look at is new to both or to none. -/
theorem unseen_iff (h : Beside s s') (hs : Sound g s) (hs' : Sound thin s')
    {rest' : List String} (hw : pending s.roots s.chain = w :: rest)
    (hw' : pending s'.roots s'.chain = w :: rest') : w ∈ s'.unseen ↔ w ∈ s.unseen := by
  rw [hs.unseen_iff_of_pending hw, hs'.unseen_iff_of_pending hw', h.seen]

/-- What the thinned search looked at before was left, or it is on the chain
and its loop was met. -/
theorem lookedBefore (ht : g.Thins thin) (h : Beside s s') (hs : Sound g s)
    (hs' : Reached thin s') {f' : Frame} {outer' : List Frame}
    (hw : pending s.roots s.chain = w :: rest) (hc : s'.chain = f' :: outer')
    (hpast : w ∉ f'.pending) :
    w ∈ s'.left ∨ w ∈ s'.chainNames ∧ loopFrom w s'.chain ∈ s'.loops := by
  have hlink : thin.Links f'.name w := by
    have hchain := h.chain
    have hchoice := hs.pending_mem_choices hw
    rw [hc] at hchain
    obtain ⟨f, outer, hf, -, hsplit⟩ := List.forall₂_cons_right_iff.1 hchain
    rw [hsplit] at hchoice
    unfold Links
    rw [ht.targets, hf.1, List.mem_eraseDups]
    exact hchoice
  rcases hs'.accounted.onChain [] f' outer' hc w hlink with
    hp | hi | hleft | ⟨loop, hloop, hback⟩
  · exact absurd hp hpast
  · cases hi
  · exact .inl hleft
  · -- the loop lies on the first way to the innermost name, which is the chain
    have htop : s'.chainNames.head? = some f'.name := by
      unfold Search.chainNames
      rw [hc]
      rfl
    obtain ⟨front, hway, hhead, -⟩ := id hback
    have hin : w ∈ s'.chainNames := by
      rw [← List.mem_reverse, ← FirstWay.unique hway (hs'.sound.firstWay htop)]
      exact List.mem_append_right _ (List.mem_of_head? hhead)
    refine .inr ⟨hin, ?_⟩
    rwa [hback.unique (hs'.sound.backLoop htop hin hlink),
      loopFrom_congr s'.chainNames_advance] at hloop

/-- Each step of the one search is made by the other, or leaves it beside. -/
theorem step (ht : g.Thins thin) (h : Beside s s') (hs : Reached g s)
    (hs' : Reached thin s') (hstep : Step g s t) :
    Beside t s' ∨ ∃ t', Step thin s' t' ∧ Beside t t' := by
  cases hstep with
  | enter hw hnew =>
      rcases h.look hw with ⟨rest', hw', hadvance⟩ | ⟨f', outer', hc, hpast, -⟩
      · exact .inr ⟨_, .enter hw' ((h.unseen_iff hs.sound hs'.sound hw hw').2 hnew),
          hadvance.enter ht _⟩
      · have hfresh := (hs.sound.unseen_iff_of_pending hw).1 hnew
        rw [← h.seen] at hfresh
        refine absurd (List.mem_append.2 ?_) hfresh
        exact (h.lookedBefore ht hs.sound hs' hw hc hpast).symm.imp_left And.left
  | @close w rest hw hold hin =>
      rcases h.look hw with ⟨rest', hw', hadvance⟩ | ⟨f', outer', hc, hpast, hadvance⟩
      · have hold' := mt (h.unseen_iff hs.sound hs'.sound hw hw').1 hold
        have hclose := hadvance.close (loopFrom w s.advance.chain)
        rw [loops_advance, loops_advance] at hclose
        refine .inr ⟨_, .close hw' hold' (h.chainNames ▸ hin), ?_⟩
        rw [hadvance.loopFrom_eq]
        exact hclose
      · rcases h.lookedBefore ht hs.sound hs' hw hc hpast with hleft | ⟨-, hloop⟩
        · rw [h.left] at hleft
          exact absurd hleft (hs.sound.not_mem_left hin)
        · rw [hadvance.loopFrom_eq] at hloop
          have hagain := hadvance.closeAgain hloop
          rw [loops_advance] at hagain
          exact .inl hagain
  | pass hw hold hout =>
      rcases h.look hw with ⟨rest', hw', hadvance⟩ | ⟨f', outer', hc, hpast, hadvance⟩
      · have hold' := mt (h.unseen_iff hs.sound hs'.sound hw hw').1 hold
        exact .inr ⟨_, .pass hw' hold' (h.chainNames ▸ hout), hadvance⟩
      · exact .inl hadvance
  | @leave v outer hc =>
      have hchain := h.chain
      rw [hc] at hchain
      obtain ⟨⟨v', pending'⟩, outer', ⟨hname, past, hpending⟩, houter, hc'⟩ :=
        List.forall₂_cons_left_iff.1 hchain
      obtain rfl : v' = v := hname
      obtain rfl : pending' = [] := hpending
      exact .inr ⟨_, .leave hc', h.roots, houter, congrArg (v' :: ·) h.left, h.loops⟩

/-- So the finished searches are side by side. -/
theorem run (ht : g.Thins thin) (h : Beside s s') (hs : Reached g s)
    (hs' : Reached thin s') : Beside (s.run g) (s'.run thin) := by
  fun_induction s.run g generalizing s' with
  | case1 s hnone =>
      obtain ⟨hchain, hroots⟩ := chain_of_next?_none hnone
      have hnone' : s'.next? thin = none := by
        have hlevels := h.chain
        rw [hchain] at hlevels
        have hroots' := h.roots.trans hroots
        unfold next?
        rw [List.forall₂_nil_left_iff.1 hlevels, hroots']
      rwa [run_of_next?_none hnone']
  | case2 s t hnext ih =>
      have hstep := step_of_next? hnext
      have ht' := Relation.ReflTransGen.tail hs hstep
      rcases h.step ht hs hs' hstep with hstill | ⟨t', hstep', hmoved⟩
      · exact ih hstill ht' hs'
      · rw [run_of_next? (next?_of_step hstep')]
        exact ih hmoved ht' (Relation.ReflTransGen.tail hs' hstep')

end Beside

theorem beside_search (ht : g.Thins thin) : Beside g.search thin.search := by
  have hstart : Beside (start g) (start thin) := ⟨ht.nodes, .nil, rfl, rfl⟩
  exact hstart.run ht Relation.ReflTransGen.refl Relation.ReflTransGen.refl

end Search

namespace Graph

variable {g thin : Graph}

-- =============================================================== results

/-- A target that is there again adds nothing to the length. -/
theorem depthOver_eraseDups (known : OrderedMap Nat) (targets : List String) :
    depthOver known targets.eraseDups = depthOver known targets := by
  refine (isGreatest_depthOver known targets.eraseDups).unique ?_
  simp only [List.mem_eraseDups]
  exact isGreatest_depthOver known targets

theorem Thins.findCycles_eq (h : g.Thins thin) : thin.findCycles = g.findCycles := by
  unfold findCycles loops
  rw [(Search.beside_search h).loops]

theorem Thins.depths_eq (h : g.Thins thin) : thin.depths = g.depths := by
  have hmeasure : (fun (known : OrderedMap Nat) v =>
      known.upsert v fun _ => depthOver known (thin.targets v)) =
        fun known v => known.upsert v fun _ => depthOver known (g.targets v) := by
    funext known v
    rw [h.targets, depthOver_eraseDups]
  unfold depths leavingOrder
  rw [(Search.beside_search h).left, hmeasure]

/-- Neither what kind the edges are of nor edges parallel to an earlier one
make any difference to the cycles and to the lengths of dependency chains,
nor to the order in which they come. -/
theorem findCycles_and_depths_thinned (g : Graph) :
    g.findCycles = g.thinned.findCycles ∧ g.depths = g.thinned.depths :=
  ⟨g.thins_thinned.findCycles_eq.symm, g.thins_thinned.depths_eq.symm⟩

end Graph

end ModuleAtlas
