/-
The tables of the walk that looks for depths.

# The walk

The walk has a stack of names with what is still to look at from each, a set
of the same names, a best length for each of them, and a length for good for
each name that it left (`DepthWalk`). It is the walk that measures, with the
set in place of the chain (`ofMeasuring`).

# In step

So it does in each step what the search does, as the walk for cycles does
(`follows`). Both come to their end with the cycles and the depths of the
graph and were thorough on their way, the tables of each fit each other at
all times, and no lookup fails (`walks_in_step`).
-/
import ModuleAtlas.Proofs.Graph.CycleWalk

namespace ModuleAtlas

open Search

-- =========================================================== the walk

/-- A walk that looks for depths: the lengths of the names it left, the best
lengths so far and the names of the chain since the present starting point,
the chain as a stack, innermost first, and the starting points to come. -/
structure DepthWalk where
  depths : OrderedMap Nat
  best : OrderedMap Nat
  onPath : Finset String
  stack : List Frame
  roots : List String

namespace DepthWalk

open Measuring

variable (g : Graph)

def start : DepthWalk where
  depths := .empty
  best := .empty
  onPath := ∅
  stack := []
  roots := g.nodes.keys

/-- The walk after it went into `v`. -/
def enter (m : DepthWalk) (v : String) : DepthWalk :=
  { m with
    best := m.best.upsert v fun _ => 0
    onPath := insert v m.onPath
    stack := ⟨v, g.targets v⟩ :: m.stack }

/-- The next step with what it does, if there is anything left to do. Each
starting point begins with tables of its own. -/
def next? (m : DepthWalk) : Option (Except String (List Deed × DepthWalk)) :=
  match m.stack with
  | [] =>
    match m.roots with
    | [] => none
    | r :: roots =>
      some <| .ok <| if m.depths.contains r then ([], { m with roots := roots })
        else ([.enter r], { m with roots := roots, best := .empty, onPath := ∅ }.enter g r)
  | ⟨v, []⟩ :: outer => some do
    let d ← lookUp m.best v
    let depths := m.depths.upsert v fun _ => d
    let best ← match outer with
      | [] => pure m.best
      | f :: _ => do raise m.best f.name (← lookUp depths v)
    return ([.leave v],
      { m with depths := depths, best := best, onPath := m.onPath.erase v, stack := outer })
  | ⟨v, w :: pending⟩ :: outer =>
    let m := { m with stack := ⟨v, pending⟩ :: outer }
    some <|
      if w ∈ m.onPath then .ok ([.look v w], m)
      else if m.depths.contains w then do
        let best ← raise m.best v (← lookUp m.depths w)
        return ([.look v w], { m with best := best })
      else .ok ([.look v w, .enter w], m.enter g w)

variable {g : Graph} {s : Search} {m : DepthWalk} {n n' : Measuring} {v w : String}
    {rest : List String}

-- ================================================ beside what measures

/-- The tables of the walk that measures, and the names of its chain. -/
def ofMeasuring (n : Measuring) : DepthWalk where
  depths := n.known
  best := n.best
  onPath := (n.chain.map Frame.name).toFinset
  stack := n.chain
  roots := n.roots

theorem ofMeasuring_enter (n : Measuring) (v : String) :
    ofMeasuring (n.enter g v) = (ofMeasuring n).enter g v := by
  unfold ofMeasuring Measuring.enter enter
  dsimp only
  rw [List.map_cons, List.toFinset_cons]

/-- The walk is where the one that measures is, and this beside the search. -/
def Beside (g : Graph) (s : Search) (m : DepthWalk) : Prop :=
  ∃ n, Keeps g s n ∧ m = ofMeasuring n

-- ========================================================== its steps

/-- A choice that is new is entered. -/
theorem next?_of_new (hw : pending n.roots n.chain = w :: rest)
    (hoff : w ∉ n.chain.map Frame.name) (hnew : n.known.find? w = none)
    (hstep : Measuring.Step g n n') :
    (ofMeasuring n).next? g = some (.ok (looks n.chain w ++ [.enter w], ofMeasuring n')) := by
  have hknown : ¬ n.known.contains w = true := by
    rw [OrderedMap.contains_iff, hnew]
    simp
  obtain ⟨known, best, roots, chain⟩ := n
  cases chain with
  | nil =>
      obtain rfl : roots = w :: rest := hw
      obtain rfl : n' = Measuring.enter g ⟨known, .empty, rest, []⟩ w :=
        Measuring.rightUnique_step g hstep (Measuring.step_root_new hnew)
      rw [ofMeasuring_enter]
      exact congrArg some (congrArg Except.ok (if_neg hknown))
  | cons f outer =>
      obtain ⟨v, pending⟩ := f
      obtain rfl : pending = w :: rest := hw
      obtain rfl : n' = Measuring.enter g ⟨known, best, roots, ⟨v, rest⟩ :: outer⟩ w :=
        Measuring.rightUnique_step g hstep (Measuring.step_new hoff hnew)
      rw [ofMeasuring_enter]
      unfold next? ofMeasuring
      dsimp only at hoff hknown ⊢
      rw [if_neg (List.mem_toFinset.not.2 hoff), if_neg hknown]
      rfl

/-- A target on the chain is passed over. -/
theorem next?_of_back (hw : pending n.roots n.chain = w :: rest)
    (hon : w ∈ n.chain.map Frame.name) (hstep : Measuring.Step g n n') :
    (ofMeasuring n).next? g = some (.ok (looks n.chain w, ofMeasuring n')) := by
  obtain ⟨known, best, roots, chain⟩ := n
  cases chain with
  | nil => cases hon
  | cons f outer =>
      obtain ⟨v, pending⟩ := f
      obtain rfl : pending = w :: rest := hw
      rw [Measuring.rightUnique_step g hstep (Measuring.step_back hon)]
      exact congrArg some (if_pos (List.mem_toFinset.2 hon))

/-- A choice that was left is counted where it is a target. -/
theorem next?_of_past {d : Nat} (hw : pending n.roots n.chain = w :: rest)
    (hoff : w ∉ n.chain.map Frame.name) (hd : n.known.find? w = some d)
    (hstep : Measuring.Step g n n') :
    (ofMeasuring n).next? g = some (.ok (looks n.chain w, ofMeasuring n')) := by
  have hknown : n.known.contains w = true := OrderedMap.contains_iff.2 ⟨d, hd⟩
  obtain ⟨known, best, roots, chain⟩ := n
  cases chain with
  | nil =>
      obtain rfl : roots = w :: rest := hw
      rw [Measuring.rightUnique_step g hstep (Measuring.step_root_old hd)]
      exact congrArg some (congrArg Except.ok (if_pos hknown))
  | cons f outer =>
      obtain ⟨v, pending⟩ := f
      obtain rfl : pending = w :: rest := hw
      obtain ⟨best', hbest, rfl⟩ : ∃ best', raise best v d = .ok best' ∧
          n' = ⟨known, best', roots, ⟨v, rest⟩ :: outer⟩ := by
        have hmissing : w ∉ (⟨v, rest⟩ :: outer : List Frame).map Frame.name := hoff
        unfold Measuring.Step Measuring.next? at hstep
        dsimp only at hstep hd
        rw [if_neg hmissing, hd] at hstep
        obtain ⟨best', hbest, hrest⟩ := Success.bind_eq_ok_iff.1 (Option.some.inj hstep)
        exact ⟨best', hbest, (Except.ok.inj hrest).symm⟩
      unfold next? ofMeasuring
      dsimp only at hd hoff hknown ⊢
      rw [if_neg (List.mem_toFinset.not.2 hoff), if_pos hknown, lookUp_eq hd, Success.ok_bind,
        hbest]
      rfl

/-- The innermost name is left. -/
theorem next?_of_leave {outer : List Frame} (hc : n.chain = ⟨v, []⟩ :: outer)
    (hnodup : (n.chain.map Frame.name).Nodup) (hstep : Measuring.Step g n n') :
    (ofMeasuring n).next? g = some (.ok ([.leave v], ofMeasuring n')) := by
  obtain ⟨known, best, roots, chain⟩ := n
  obtain rfl : chain = _ := hc
  obtain ⟨d, hd, hrest⟩ := Success.bind_eq_ok_iff.1 (Option.some.inj hstep)
  have hlearned : lookUp (known.upsert v fun _ => d) v = .ok d :=
    lookUp_eq (by rw [OrderedMap.find?_upsert, if_pos rfl])
  have herase := erase_toFinset hnodup
  unfold next? ofMeasuring
  dsimp only at herase ⊢
  rw [hd, Success.ok_bind, List.map_cons, herase]
  cases outer with
  | nil =>
      obtain rfl := Except.ok.inj hrest
      rfl
  | cons f outer =>
      obtain ⟨best', hbest, hrest⟩ := Success.bind_eq_ok_iff.1 hrest
      obtain rfl := Except.ok.inj hrest
      dsimp only
      rw [hlearned, Success.ok_bind, hbest]
      rfl

/-- The walk for depths does what the search does. -/
theorem follows (g : Graph) : Follows g (next? g) (start g) (Beside g) where
  start := ⟨.start g, keeps_start g, rfl⟩
  stops s m h hs := by
    obtain ⟨n, hkeeps, rfl⟩ := h
    obtain ⟨hchain, hroots⟩ := chain_of_next?_none hs
    unfold next? ofMeasuring
    rw [hkeeps.chain, hkeeps.roots, hchain, hroots]
  steps s s' m hreached h hstep := by
    obtain ⟨n, hkeeps, rfl⟩ := h
    have hs := hreached.sound
    obtain ⟨n', hnext, hkeeps'⟩ := hstep.keeps hs hkeeps
    have hpending : pending n.roots n.chain = pending s.roots s.chain := by
      rw [hkeeps.roots, hkeeps.chain]
    have hnames : n.chain.map Frame.name = s.chainNames := congrArg _ hkeeps.chain
    refine ⟨ofMeasuring n', ?_, n', hkeeps', rfl⟩
    cases hstep with
    | @enter w _ hw hnew =>
        obtain ⟨hout, hleft⟩ := not_or.1 (List.mem_append.not.1 ((hs.unseen_iff w).1 hnew).2)
        rw [deeds_of_new hw hnew, ← hkeeps.chain]
        exact next?_of_new (hpending.trans hw) (by rwa [hnames])
          (hkeeps.find?_eq_none hs hleft) hnext
    | close hw hold hin =>
        rw [deeds_of_old hw hold, ← hkeeps.chain]
        exact next?_of_back (hpending.trans hw) (by rwa [hnames]) hnext
    | pass hw hold hout =>
        have hleft := (List.mem_append.1 (hs.seen_of_not_unseen hw hold)).resolve_left hout
        obtain ⟨d, hd⟩ := (hkeeps.exists_find?_iff hs).2 hleft
        rw [deeds_of_old hw hold, ← hkeeps.chain]
        exact next?_of_past (hpending.trans hw) (by rwa [hnames]) hd hnext
    | leave hc =>
        have hnodup : (n.chain.map Frame.name).Nodup := by
          rw [hnames]
          exact hs.nodup_chain
        rw [deeds_of_leave hc]
        exact next?_of_leave (hkeeps.chain.trans hc) hnodup hnext

-- ============================================================ in step

variable {record : List Deed}

/-- The tables of the walk for depths fit each other and what was done so
far. The set is that of the names on the stack, which stand there once, were
entered and not left, and have a best length but none for good. Between two
starting points the set is empty. -/
structure InStep (m : DepthWalk) (record : List Deed) : Prop where
  onPath_eq : m.onPath = (m.stack.map Frame.name).toFinset
  nodup_stack : (m.stack.map Frame.name).Nodup
  mem_depths_iff : ∀ v, v ∈ m.depths.keys ↔ v ∈ Deed.finished record
  unfinished : ∀ f ∈ m.stack, f.name ∈ Deed.entered record ∧ f.name ∉ Deed.finished record ∧
    ∃ b, m.best.find? f.name = some b
  idle : m.stack = [] → m.onPath = ∅

theorem Beside.inStep (h : Beside g s m) (hs : Sound g s)
    (hr : Recorded g s record) : m.InStep record := by
  obtain ⟨n, hkeeps, rfl⟩ := h
  refine ⟨rfl, ?_, ?_, ?_, ?_⟩
  · have hnodup := hs.nodup_chain
    rwa [← hkeeps.chain] at hnodup
  · intro v
    rw [hr.finished, List.mem_reverse, ← hkeeps.exists_find?_iff hs, OrderedMap.mem_keys_iff]
    rfl
  · intro f hf
    have hmem : f ∈ s.chain := hkeeps.chain ▸ hf
    obtain ⟨looked, -, hbest⟩ := hkeeps.best f hmem
    obtain ⟨hentered, hnot⟩ := hr.unfinished hs (List.mem_map_of_mem hmem)
    exact ⟨hentered, hnot, _, hbest⟩
  · intro hstack
    have hchain : n.chain = [] := hstack
    unfold ofMeasuring
    rw [hchain]
    rfl

end DepthWalk

-- ========================================================= both walks

/-- The walks for cycles and for depths come to their ends on every graph, with
its cycles and its depths. Each enters every name that can be reached once and
looks once at every edge from there, and at no time does a lookup fail or one
of the tables not fit the others. -/
theorem walks_in_step (g : Graph) :
    (∃ record m, Trace (CycleWalk.next? g) (.start g) record m ∧ m.next? g = none ∧
      Thorough g record ∧ m.cycles.map Cycle.ofNodes = g.findCycles) ∧
    (∀ record m, Trace (CycleWalk.next? g) (.start g) record m →
      m.InStep record ∧ ∀ e, m.next? g ≠ some (.error e)) ∧
    (∃ record m, Trace (DepthWalk.next? g) (.start g) record m ∧ m.next? g = none ∧
      Thorough g record ∧ m.depths = g.depths) ∧
    (∀ record m, Trace (DepthWalk.next? g) (.start g) record m →
      m.InStep record ∧ ∀ e, m.next? g ≠ some (.error e)) := by
  refine ⟨?_, fun record m htrace => ?_, ?_, fun record m htrace => ?_⟩
  · obtain ⟨record, m, htrace, hstop, hthorough, hbeside⟩ := (CycleWalk.follows g).exists_end
    refine ⟨record, m, htrace, hstop, hthorough, ?_⟩
    rw [hbeside.cycles]
    rfl
  · obtain ⟨s, hreached, hbeside, hrecorded⟩ := (CycleWalk.follows g).exists_search htrace
    exact ⟨hbeside.inStep hreached.sound hrecorded, (CycleWalk.follows g).not_failing htrace⟩
  · obtain ⟨record, m, htrace, hstop, hthorough, n, hkeeps, rfl⟩ :=
      (DepthWalk.follows g).exists_end
    exact ⟨record, _, htrace, hstop, hthorough, hkeeps.known⟩
  · obtain ⟨s, hreached, hbeside, hrecorded⟩ := (DepthWalk.follows g).exists_search htrace
    exact ⟨hbeside.inStep hreached.sound hrecorded, (DepthWalk.follows g).not_failing htrace⟩

end ModuleAtlas
