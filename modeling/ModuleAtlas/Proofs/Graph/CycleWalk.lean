/-
The tables of the walk that looks for cycles.

# The walk

The walk has a set of the names it entered, the path it is on as a list and
as a set, and a stack of what is still to look at from each name of the path
(`CycleWalk`). A target in the set is looked for in the list, and what stands
there from it on is a cycle. When nothing is left to look at, the last name
is taken off the list. Each table is changed on its own, and a lookup fails
if another is not in step with it.

# In step

The walk does in each step what the search does, and its tables can be told
from where the search is (`Beside`, `follows`). So they fit each other at all
times (`InStep`), and no lookup fails.
-/
import Mathlib.Data.Finset.Basic
import ModuleAtlas.Proofs.Graph.Cycles
import ModuleAtlas.Proofs.Graph.Deeds
import ModuleAtlas.Proofs.Graph.Measuring
import ModuleAtlas.Proofs.Graph.Parallel

namespace ModuleAtlas

open Search

/-- Where no name stands twice, the names without the first are the others. -/
theorem erase_toFinset {v : String} {names : List String} (h : (v :: names).Nodup) :
    (v :: names).toFinset.erase v = names.toFinset := by
  rw [List.toFinset_cons, Finset.erase_insert]
  rw [List.mem_toFinset]
  exact (List.nodup_cons.1 h).1

-- =========================================================== the walk

/-- A walk that looks for cycles: the names it entered, the names of its
path, the path from its starting point on, the names on it with the targets
still to look at, innermost first, the starting points to come, the sets of
names of the cycles it kept, and these cycles. -/
structure CycleWalk where
  visited : Finset String
  onPath : Finset String
  path : List String
  stack : List Frame
  roots : List String
  known : Finset (Finset String)
  cycles : List (List String)

namespace CycleWalk

variable (g : Graph)

def start : CycleWalk where
  visited := ∅
  onPath := ∅
  path := []
  stack := []
  roots := g.nodes.keys
  known := ∅
  cycles := []

/-- The walk after it went into `v`. -/
def enter (m : CycleWalk) (v : String) : CycleWalk :=
  { m with
    visited := insert v m.visited
    onPath := insert v m.onPath
    path := m.path ++ [v]
    stack := ⟨v, g.targets v⟩ :: m.stack }

/-- The path from `v` on; a name that is not there is what this fails with. -/
def cut (path : List String) (v : String) : Except String (List String) :=
  if v ∈ path then .ok (path.drop (path.idxOf v)) else .error v

/-- The last name of the path, and the path without it. -/
def pop (path : List String) : Except String (String × List String) :=
  match path.getLast? with
  | some v => .ok (v, path.dropLast)
  | none => .error ""

/-- The walk after it met a cycle: one with the names of another is not kept. -/
def keep (m : CycleWalk) (cycle : List String) : CycleWalk :=
  if cycle.toFinset ∈ m.known then m
  else { m with known := insert cycle.toFinset m.known, cycles := m.cycles ++ [cycle] }

/-- The next step with what it does, if there is anything left to do. Of an
entry of the stack only what is still to look at is read; its name is said in
the deeds. -/
def next? (m : CycleWalk) : Option (Except String (List Deed × CycleWalk)) :=
  match m.stack with
  | [] =>
    match m.roots with
    | [] => none
    | r :: roots =>
      let m := { m with roots := roots }
      some <| .ok <| if r ∈ m.visited then ([], m) else ([.enter r], m.enter g r)
  | ⟨v, []⟩ :: outer => some do
    let (last, path) ← pop m.path
    return ([.leave v], { m with stack := outer, path := path, onPath := m.onPath.erase last })
  | ⟨v, w :: pending⟩ :: outer =>
    let m := { m with stack := ⟨v, pending⟩ :: outer }
    some <|
      if w ∉ m.visited then .ok ([.look v w, .enter w], m.enter g w)
      else if w ∈ m.onPath then do
        let cycle ← cut m.path w
        return ([.look v w], m.keep cycle)
      else .ok ([.look v w], m)

variable {g : Graph} {s : Search} {m : CycleWalk} {v w : String} {rest : List String}

-- ================================================== beside the search

/-- The tables as they are where the search is. -/
structure Beside (s : Search) (m : CycleWalk) : Prop where
  visited : m.visited = s.seen.toFinset
  onPath : m.onPath = s.chainNames.toFinset
  path : m.path = s.chainNames.reverse
  stack : m.stack = s.chain
  roots : m.roots = s.roots
  known : m.known = (m.cycles.map List.toFinset).toFinset
  cycles : m.cycles = Graph.distinctLoops [] s.loops.reverse

theorem beside_start (g : Graph) : Beside (Search.start g) (start g) :=
  ⟨rfl, rfl, rfl, rfl, rfl, rfl, rfl⟩

theorem Beside.enter (h : Beside s m) (w : String) : Beside (s.enter g w) (m.enter g w) where
  visited := by
    have hseen : (s.enter g w).seen = w :: s.seen := rfl
    rw [hseen, List.toFinset_cons, ← h.visited]
    rfl
  onPath := by
    have hnames : (s.enter g w).chainNames = w :: s.chainNames := rfl
    rw [hnames, List.toFinset_cons, ← h.onPath]
    rfl
  path := by
    have hnames : (s.enter g w).chainNames = w :: s.chainNames := rfl
    rw [hnames, List.reverse_cons, ← h.path]
    rfl
  stack := congrArg _ h.stack
  roots := h.roots
  known := h.known
  cycles := h.cycles

/-- A cycle is kept if its set of names is new, as the loops are that have
not the names of an earlier one. -/
theorem Beside.keep (h : Beside s m) (loop : List String) :
    Beside { s with loops := loop :: s.loops } (m.keep loop) := by
  have hknown : loop.toFinset ∈ m.known ↔
      (Graph.distinctLoops [] s.loops.reverse).any (Graph.sameNames loop) = true := by
    rw [h.known, ← h.cycles, List.any_eq_true]
    simp only [List.mem_toFinset, List.mem_map, Graph.sameNames_iff, Finset.ext_iff]
    constructor
    · intro hmem
      obtain ⟨l, hl, hsame⟩ := hmem
      exact ⟨l, hl, fun x => (hsame x).symm⟩
    · intro hmem
      obtain ⟨l, hl, hsame⟩ := hmem
      exact ⟨l, hl, fun x => (hsame x).symm⟩
  have hcycles : Graph.distinctLoops [] (loop :: s.loops).reverse =
      m.cycles ++ if loop.toFinset ∈ m.known then [] else [loop] := by
    rw [List.reverse_cons, Graph.distinctLoops_concat, List.nil_append, h.cycles]
    simp only [hknown]
  unfold CycleWalk.keep
  split
  · next hold =>
    rw [if_pos hold, List.append_nil] at hcycles
    exact ⟨h.visited, h.onPath, h.path, h.stack, h.roots, h.known, hcycles.symm⟩
  · next hnew =>
    rw [if_neg hnew] at hcycles
    refine ⟨h.visited, h.onPath, h.path, h.stack, h.roots, ?_, hcycles.symm⟩
    ext names
    simp [h.known]

/-- From the name on, the path is the loop that leads back to it. -/
theorem cut_reverse {chain : List Frame} (hnodup : (chain.map Frame.name).Nodup)
    (hw : w ∈ chain.map Frame.name) :
    cut (chain.map Frame.name).reverse w = .ok (loopFrom w chain) := by
  obtain ⟨outside, hsplit⟩ := takeWhile_ne_append hw
  -- the list is searched from the far end, so the name may not stand there as well
  have hout : w ∉ outside := by
    rw [hsplit] at hnodup
    exact (List.nodup_cons.1 (List.nodup_append.1 hnodup).2.1).1
  unfold cut loopFrom
  rw [if_pos (List.mem_reverse.2 hw)]
  generalize (chain.map Frame.name).takeWhile (· != w) = inside at hsplit
  rw [hsplit, List.reverse_append, List.reverse_cons, List.append_assoc,
    List.idxOf_append_of_notMem (by simpa using hout)]
  simp

theorem pop_reverse (names : List String) : pop (v :: names).reverse = .ok (v, names.reverse) := by
  unfold pop
  rw [List.reverse_cons, List.getLast?_concat, List.dropLast_concat]

-- ========================================================== its steps

/-- The walk after it looked at the next choice. -/
def advance (m : CycleWalk) : CycleWalk :=
  match m.stack with
  | [] => { m with roots := m.roots.tail }
  | f :: outer => { m with stack := ⟨f.name, f.pending.tail⟩ :: outer }

theorem Beside.advance (h : Beside s m) : Beside s.advance m.advance := by
  obtain ⟨unseen, roots, chain, left, loops⟩ := s
  obtain ⟨visited, onPath, path, stack, roots', known, cycles⟩ := m
  obtain rfl : roots' = roots := h.roots
  obtain rfl : stack = chain := h.stack
  cases stack with
  | nil => exact ⟨h.visited, h.onPath, h.path, rfl, rfl, h.known, h.cycles⟩
  | cons f outer => exact ⟨h.visited, h.onPath, h.path, rfl, rfl, h.known, h.cycles⟩

/-- A choice that is new is entered. -/
theorem next?_of_new (hw : pending m.roots m.stack = w :: rest) (hnew : w ∉ m.visited) :
    m.next? g = some (.ok (looks m.stack w ++ [.enter w], m.advance.enter g w)) := by
  obtain ⟨visited, onPath, path, stack, roots, known, cycles⟩ := m
  cases stack with
  | nil =>
      obtain rfl : roots = w :: rest := hw
      exact congrArg some (congrArg Except.ok (if_neg hnew))
  | cons f outer =>
      obtain ⟨v, pending⟩ := f
      obtain rfl : pending = w :: rest := hw
      exact congrArg some (if_pos hnew)

/-- A choice off the path that was entered before is passed over. -/
theorem next?_of_past (hw : pending m.roots m.stack = w :: rest) (hold : w ∈ m.visited)
    (hoff : w ∉ m.onPath) : m.next? g = some (.ok (looks m.stack w, m.advance)) := by
  obtain ⟨visited, onPath, path, stack, roots, known, cycles⟩ := m
  cases stack with
  | nil =>
      obtain rfl : roots = w :: rest := hw
      exact congrArg some (congrArg Except.ok (if_pos hold))
  | cons f outer =>
      obtain ⟨v, pending⟩ := f
      obtain rfl : pending = w :: rest := hw
      exact congrArg some ((if_neg (not_not_intro hold)).trans (if_neg hoff))

/-- A target on the path closes a cycle. -/
theorem next?_of_back (hw : pending m.roots m.stack = w :: rest) (hstack : m.stack ≠ [])
    (hold : w ∈ m.visited) (hon : w ∈ m.onPath) {cycle : List String}
    (hcycle : cut m.path w = .ok cycle) :
    m.next? g = some (.ok (looks m.stack w, m.advance.keep cycle)) := by
  obtain ⟨visited, onPath, path, stack, roots, known, cycles⟩ := m
  cases stack with
  | nil => exact absurd rfl hstack
  | cons f outer =>
      obtain ⟨v, pending⟩ := f
      obtain rfl : pending = w :: rest := hw
      refine congrArg some ((if_neg (not_not_intro hold)).trans ((if_pos hon).trans ?_))
      dsimp only
      rw [show cut path w = .ok cycle from hcycle]
      rfl

namespace Beside

theorem mem_visited_iff (h : Beside s m) : w ∈ m.visited ↔ w ∈ s.seen := by
  rw [h.visited, List.mem_toFinset]

theorem mem_onPath_iff (h : Beside s m) : w ∈ m.onPath ↔ w ∈ s.chainNames := by
  rw [h.onPath, List.mem_toFinset]

/-- Both have the same choices before them. -/
theorem pending_eq (h : Beside s m) : pending m.roots m.stack = pending s.roots s.chain := by
  rw [h.roots, h.stack]

theorem close (h : Beside s m) (hs : Sound g s) (hw : pending s.roots s.chain = w :: rest)
    (hold : w ∉ s.unseen) (hin : w ∈ s.chainNames) :
    ∃ m', m.next? g = some (.ok (s.deeds, m')) ∧
      Beside { s.advance with loops := loopFrom w s.advance.chain :: s.loops } m' := by
  have hseen := h.mem_visited_iff.2 (hs.seen_of_not_unseen hw hold)
  have hstack : m.stack ≠ [] := by
    rw [h.stack]
    intro hnil
    unfold chainNames at hin
    rw [hnil] at hin
    cases hin
  have hnames : s.advance.chain.map Frame.name = s.chainNames := chainNames_advance s
  have hcut : cut m.path w = .ok (loopFrom w s.advance.chain) := by
    rw [h.path, ← hnames]
    refine cut_reverse ?_ ?_
    · rw [hnames]
      exact hs.nodup_chain
    · rwa [hnames]
  have hkeep := h.advance.keep (loopFrom w s.advance.chain)
  rw [loops_advance] at hkeep
  rw [deeds_of_old hw hold, ← h.stack]
  have hon := h.mem_onPath_iff.2 hin
  exact ⟨_, next?_of_back (h.pending_eq.trans hw) hstack hseen hon hcut, hkeep⟩

theorem leave (h : Beside s m) (hs : Sound g s) {outer : List Frame}
    (hc : s.chain = ⟨v, []⟩ :: outer) :
    ∃ m', m.next? g = some (.ok (s.deeds, m')) ∧
      Beside { s with chain := outer, left := v :: s.left } m' := by
  have hnames : s.chainNames = v :: outer.map Frame.name := by
    unfold chainNames
    rw [hc]
    rfl
  have hpop : pop m.path = .ok (v, (outer.map Frame.name).reverse) := by
    rw [h.path, hnames, pop_reverse]
  have hnodup : s.chainNames.Nodup := hs.nodup_chain
  refine ⟨{ m with
    stack := outer, path := (outer.map Frame.name).reverse, onPath := m.onPath.erase v },
    ?_, ?_, ?_, rfl, rfl, h.roots, h.known, h.cycles⟩
  · unfold next?
    rw [deeds_of_leave hc, h.stack, hc]
    dsimp only
    rw [hpop]
    rfl
  · rw [h.visited]
    refine List.toFinset_eq_of_perm _ _ ?_
    unfold seen
    rw [hnames]
    exact List.perm_middle.symm
  · rw [hnames] at hnodup
    exact (congrArg (·.erase v) (h.onPath.trans (congrArg _ hnames))).trans (erase_toFinset hnodup)

end Beside

/-- The walk for cycles does what the search does. -/
theorem follows (g : Graph) : Follows g (next? g) (start g) Beside where
  start := beside_start g
  stops s m h hs := by
    obtain ⟨hchain, hroots⟩ := chain_of_next?_none hs
    unfold next?
    rw [h.stack, h.roots, hchain, hroots]
  steps s s' m hreached h hstep := by
    have hs := hreached.sound
    cases hstep with
    | @enter w _ hw hnew =>
        have hfresh : w ∉ m.visited :=
          h.mem_visited_iff.not.2 ((hs.unseen_iff w).1 hnew).2
        rw [deeds_of_new hw hnew, ← h.stack]
        exact ⟨_, next?_of_new (h.pending_eq.trans hw) hfresh, h.advance.enter w⟩
    | close hw hold hin => exact h.close hs hw hold hin
    | pass hw hold hout =>
        have hseen := h.mem_visited_iff.2 (hs.seen_of_not_unseen hw hold)
        rw [deeds_of_old hw hold, ← h.stack]
        exact ⟨_, next?_of_past (h.pending_eq.trans hw) hseen (h.mem_onPath_iff.not.2 hout),
          h.advance⟩
    | leave hc => exact h.leave hs hc

-- ============================================================ in step

variable {record : List Deed}

/-- The tables of the walk for cycles fit each other and what was done so
far. The path is the chain that the stack is about, as a list and as a set;
its names stand there once, and were entered and not left. Between two
starting points all of it is empty. -/
structure InStep (m : CycleWalk) (record : List Deed) : Prop where
  length_stack : m.stack.length = m.path.length
  names_stack : m.stack.map Frame.name = m.path.reverse
  onPath_eq : m.onPath = m.path.toFinset
  nodup_path : m.path.Nodup
  visited_eq : m.visited = (Deed.entered record).toFinset
  unfinished : ∀ v ∈ m.path, v ∈ m.visited ∧ v ∉ Deed.finished record
  idle : m.stack = [] → m.path = [] ∧ m.onPath = ∅

theorem Beside.inStep (h : Beside s m) (hs : Sound g s)
    (hr : Recorded g s record) : m.InStep record where
  length_stack := by
    rw [h.stack, h.path, List.length_reverse]
    unfold chainNames
    rw [List.length_map]
  names_stack := by
    rw [h.stack, h.path, List.reverse_reverse]
    rfl
  onPath_eq := by
    rw [h.onPath, h.path, List.toFinset_reverse]
  nodup_path := by
    rw [h.path, List.nodup_reverse]
    exact hs.nodup_chain
  visited_eq := by
    rw [h.visited]
    exact (List.toFinset_eq_of_perm _ _ hr.entered).symm
  unfinished v hv := by
    rw [h.path, List.mem_reverse] at hv
    exact ⟨h.mem_visited_iff.2 (List.mem_append_left _ hv), (hr.unfinished hs hv).2⟩
  idle hstack := by
    rw [h.stack] at hstack
    rw [h.path, h.onPath]
    unfold chainNames
    rw [hstack]
    exact ⟨rfl, rfl⟩

end CycleWalk

end ModuleAtlas
