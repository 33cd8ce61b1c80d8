/-
Depth-first search of the graph, from every node in turn.

# The machine

The search is a machine with one small step (`Search.next?`). It keeps
the chain of names it is in, innermost first, each with the targets it
has still to look at; the names never entered; the names it has left,
latest first; and the loops it met. A target that is unseen is entered.
One that is on the chain closes a loop: the part of the chain from it to
the innermost name. Any other target was left before and tells nothing
new.

# Why it ends

Entering a name removes it from the unseen ones, and every other step
takes something from the work at hand: a root, a target, a name of the
chain. The pair of both sizes falls in the lexicographic order
(`next?_decreases`), so a run needs no bound.

Both the cycles of a graph and the lengths of its dependency chains are
read off the same run.
-/
import ModuleAtlas.Graph.Basic

namespace ModuleAtlas

/-- A name on the chain, with its targets not yet looked at. -/
structure Frame where
  name : String
  pending : List String
  deriving Repr, DecidableEq

structure Search where
  unseen : List String
  roots : List String
  chain : List Frame
  left : List String
  loops : List (List String)
  deriving Repr

namespace Search

-- ============================================================ one step

variable (g : Graph)

/-- Nothing seen, and every node still a starting point. -/
def start : Search where
  unseen := g.names
  roots := g.nodes.keys
  chain := []
  left := []
  loops := []

/-- The search after it went into `v`. -/
def enter (s : Search) (v : String) : Search :=
  { s with unseen := s.unseen.filter (· != v), chain := ⟨v, g.targets v⟩ :: s.chain }

/-- The names from `w` to the innermost one, for a chain that holds `w`. -/
def loopFrom (w : String) (chain : List Frame) : List String :=
  w :: ((chain.map Frame.name).takeWhile (· != w)).reverse

/-- The next step, if there is anything left to do. -/
def next? (s : Search) : Option Search :=
  match s.chain with
  | [] =>
    match s.roots with
    | [] => none
    | r :: roots =>
      let s := { s with roots := roots }
      some (if r ∈ s.unseen then s.enter g r else s)
  | ⟨v, []⟩ :: outer => some { s with chain := outer, left := v :: s.left }
  | ⟨v, w :: pending⟩ :: outer =>
    let s := { s with chain := ⟨v, pending⟩ :: outer }
    if w ∈ s.unseen then some (s.enter g w)
    else if w ∈ s.chain.map Frame.name then
      some { s with loops := loopFrom w s.chain :: s.loops }
    else some s

-- ========================================================= termination

/-- The names to leave in a chain and the targets to look at. -/
def chainWork : List Frame → Nat
  | [] => 0
  | f :: outer => f.pending.length + 1 + chainWork outer

/-- The work at hand: that of the chain, and the starting points. -/
def work (s : Search) : Nat := s.roots.length + chainWork s.chain

theorem length_unseen_enter {s : Search} {v : String} (h : v ∈ s.unseen) :
    (s.enter g v).unseen.length < s.unseen.length := by
  simp only [enter]
  exact List.length_filter_lt_length_iff_exists.2 ⟨v, h, by simp⟩

/-- A step sees something new or leaves less to do. -/
theorem next?_decreases {s s' : Search} (h : s.next? g = some s') :
    s'.unseen.length < s.unseen.length ∨
      s'.unseen.length = s.unseen.length ∧ s'.work < s.work := by
  unfold next? at h
  split at h
  · next hc =>
    split at h
    · simp at h
    · next r roots hr =>
      simp only [Option.some.injEq] at h
      by_cases hm : r ∈ s.unseen
      · rw [if_pos hm] at h
        subst h
        exact .inl (length_unseen_enter g (s := { s with roots := roots }) hm)
      · rw [if_neg hm] at h
        subst h
        exact .inr ⟨rfl, by simp [work, hc, hr]⟩
  · next v outer hc =>
    simp only [Option.some.injEq] at h
    subst h
    exact .inr ⟨rfl, by simp [work, chainWork, hc]⟩
  · next v w pending outer hc =>
    by_cases hm : w ∈ s.unseen
    · simp only [hm, ↓reduceIte, Option.some.injEq] at h
      subst h
      exact .inl (length_unseen_enter g (s := { s with chain := ⟨v, pending⟩ :: outer }) hm)
    · simp only [hm, ↓reduceIte] at h
      split at h
      all_goals
        simp only [Option.some.injEq] at h
        subst h
        exact .inr ⟨rfl, by simp [work, chainWork, hc]⟩

/-- Steps until nothing is left to do. -/
def run (s : Search) : Search :=
  match _h : s.next? g with
  | none => s
  | some s' => run s'
termination_by (s.unseen.length, s.work)
decreasing_by
  rcases next?_decreases g _h with hlt | ⟨heq, hlt⟩
  · exact Prod.Lex.left _ _ hlt
  · rw [heq]; exact Prod.Lex.right _ hlt

end Search

namespace Graph

/-- The finished search of the whole graph. -/
def search (g : Graph) : Search :=
  (Search.start g).run g

/-- The names that can be reached from a node, each after every name
that was entered from it. -/
def leavingOrder (g : Graph) : List String :=
  g.search.left.reverse

/-- The loops of the search in the order in which they were met, each
from the name that its closing edge leads to. -/
def loops (g : Graph) : List (List String) :=
  g.search.loops.reverse

-- ============================================================== cycles

/-- Two lists hold the same names. -/
def sameNames (a b : List String) : Bool :=
  a.all (· ∈ b) && b.all (· ∈ a)

/-- The loops without those that have the names of an earlier one;
`kept` holds the earlier ones. -/
def distinctLoops (kept : List (List String)) : List (List String) → List (List String)
  | [] => []
  | l :: ls =>
    if kept.any (sameNames l) then distinctLoops kept ls else l :: distinctLoops (l :: kept) ls

/-- The cycles that the search closes, one for each set of names. Not
every cycle of the graph is among them, but where there is a cycle, the
search closes one. -/
def findCycles (g : Graph) : List Cycle :=
  (distinctLoops [] g.loops).map Cycle.ofNodes

-- ============================================================== depths

/-- The length of the longest chain that leaves over one of the targets,
given the lengths already known. -/
def depthOver (known : OrderedMap Nat) (targets : List String) : Nat :=
  targets.foldl (fun best w =>
    match known.find? w with
    | none => best
    | some d => max best (d + 1)) 0

/-- For each name that can be reached, the number of edges of the longest
chain that starts there. Names are taken as the search leaves them; an
edge back into the chain leads to a name left later, whose length is not
known yet, and so counts nothing. -/
def depths (g : Graph) : OrderedMap Nat :=
  g.leavingOrder.foldl (fun known v => known.upsert v fun _ => depthOver known (g.targets v)) .empty

end Graph

end ModuleAtlas
