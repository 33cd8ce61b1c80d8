/-
The search as a transition system.

# One kind of level

The nodes of the graph are to the empty chain what the targets of its
innermost name are to any other: the choices there, of which some are
still pending. Read this way (`choices`, `pending`), starting at a node
and following an edge are one and the same step, and a search makes four
kinds of steps (`Step`): it enters a name, closes a loop, passes over a
name that was left before, or leaves the innermost name.

# Runs

`Reached` is what any number of steps makes of the start. The finished
search is reached (`reached_search`), and in it nothing is left to do
(`chain_search`, `roots_search`). What holds at the start and survives
each step holds of every reached search (`Reached.invariant`), which is
the only induction over runs.
-/
import ModuleAtlas.Proofs.Graph.Walk

namespace ModuleAtlas

open Relation

variable {g : Graph}

-- ============================================================== levels

/-- What there is to choose from behind these frames. -/
def Graph.choices (g : Graph) : List Frame → List String
  | [] => g.nodes.keys
  | f :: _ => g.targets f.name
namespace Search

/-- The choices behind these frames that were not looked at yet. -/
def pending (roots : List String) : List Frame → List String
  | [] => roots
  | f :: _ => f.pending
/-- The names of the chain, innermost first. -/
def chainNames (s : Search) : List String := s.chain.map Frame.name

/-- The names that were entered: those of the chain, and those left. -/
def seen (s : Search) : List String := s.chainNames ++ s.left

/-- The search after it looked at the next pending choice. -/
def advance (s : Search) : Search :=
  match s.chain with
  | [] => { s with roots := s.roots.tail }
  | f :: outer => { s with chain := ⟨f.name, f.pending.tail⟩ :: outer }

@[simp] theorem unseen_advance (s : Search) : s.advance.unseen = s.unseen := by
  unfold advance
  split <;> rfl

@[simp] theorem left_advance (s : Search) : s.advance.left = s.left := by
  unfold advance
  split <;> rfl

@[simp] theorem loops_advance (s : Search) : s.advance.loops = s.loops := by
  unfold advance
  split <;> rfl

@[simp] theorem chainNames_advance (s : Search) :
    s.advance.chainNames = s.chainNames := by
  unfold advance chainNames
  split
  · rfl
  · next f outer hc => simp [hc]

@[simp] theorem seen_advance (s : Search) : s.advance.seen = s.seen := by
  unfold seen
  rw [chainNames_advance, left_advance]

/-- Looking at a choice changes no more than what is pending there. -/
theorem choices_advance (s : Search) :
    g.choices s.advance.chain = g.choices s.chain := by
  unfold advance
  split
  · rfl
  · next f outer hc => rw [hc]; rfl

theorem pending_advance (s : Search) :
    pending s.advance.roots s.advance.chain =
      (pending s.roots s.chain).tail := by
  unfold advance
  split
  · next hc => simp [hc, pending]
  · next f outer hc => simp [hc, pending]

-- =============================================================== steps

/-- What one step can do. -/
inductive Step (g : Graph) (s : Search) : Search → Prop where
  | enter {w : String} {rest : List String}
      (hw : pending s.roots s.chain = w :: rest) (hnew : w ∈ s.unseen) :
      Step g s (s.advance.enter g w)
  | close {w : String} {rest : List String}
      (hw : pending s.roots s.chain = w :: rest) (hold : w ∉ s.unseen)
      (hin : w ∈ s.chainNames) :
      Step g s { s.advance with loops := loopFrom w s.advance.chain :: s.loops }
  | pass {w : String} {rest : List String}
      (hw : pending s.roots s.chain = w :: rest) (hold : w ∉ s.unseen)
      (hout : w ∉ s.chainNames) : Step g s s.advance
  | leave {v : String} {outer : List Frame} (hc : s.chain = ⟨v, []⟩ :: outer) :
      Step g s { s with chain := outer, left := v :: s.left }

theorem step_of_next? {s s' : Search} (h : s.next? g = some s') :
    Step g s s' := by
  obtain ⟨unseen, roots, chain, left, loops⟩ := s
  unfold next? at h
  split at h
  · next hc =>
    obtain rfl : chain = [] := hc
    cases roots with
    | nil => cases h
    | cons r roots =>
        simp only [Option.some.injEq] at h
        subst h
        split
        · next hr => exact .enter rfl hr
        · next hr => exact .pass rfl hr List.not_mem_nil
  · next v outer hc =>
    obtain rfl : chain = _ := hc
    simp only [Option.some.injEq] at h
    subst h
    exact .leave rfl
  · next v w rest outer hc =>
    obtain rfl : chain = _ := hc
    dsimp only at h
    split at h
    · next hw =>
      simp only [Option.some.injEq] at h
      subst h
      exact .enter rfl hw
    · next hw =>
      split at h
      · next hin =>
        simp only [Option.some.injEq] at h
        subst h
        exact .close rfl hw hin
      · next hout =>
        simp only [Option.some.injEq] at h
        subst h
        exact .pass rfl hw hout

/-- Each step that can be made is the next one. -/
theorem next?_of_step {s s' : Search} (h : Step g s s') : s.next? g = some s' := by
  obtain ⟨unseen, roots, chain, left, loops⟩ := s
  unfold next?
  cases h with
  | @enter w rest hw hnew =>
      cases chain with
      | nil =>
          obtain rfl : roots = w :: rest := hw
          exact congrArg some (if_pos hnew)
      | cons f outer =>
          obtain ⟨v, pending⟩ := f
          obtain rfl : pending = w :: rest := hw
          exact if_pos hnew
  | @close w rest hw hold hin =>
      cases chain with
      | nil => cases hin
      | cons f outer =>
          obtain ⟨v, pending⟩ := f
          obtain rfl : pending = w :: rest := hw
          exact (if_neg hold).trans (if_pos hin)
  | @pass w rest hw hold hout =>
      cases chain with
      | nil =>
          obtain rfl : roots = w :: rest := hw
          exact congrArg some (if_neg hold)
      | cons f outer =>
          obtain ⟨v, pending⟩ := f
          obtain rfl : pending = w :: rest := hw
          exact (if_neg hold).trans (if_neg hout)
  | leave hc =>
      obtain rfl : chain = _ := hc
      rfl

/-- A search stops only when everything was looked at. -/
theorem chain_of_next?_none {s : Search} (h : s.next? g = none) :
    s.chain = [] ∧ s.roots = [] := by
  obtain ⟨unseen, roots, chain, left, loops⟩ := s
  unfold next? at h
  split at h
  · next hc =>
    cases roots with
    | nil => exact ⟨hc, rfl⟩
    | cons r roots => cases h
  · cases h
  · dsimp only at h
    split at h
    · cases h
    · split at h <;> cases h

-- ================================================================ runs

/-- The search comes from the start by some steps. -/
def Reached (g : Graph) (s : Search) : Prop :=
  ReflTransGen (Step g) (start g) s

/-- What holds at the start and survives each step holds of every
reached search. -/
theorem Reached.invariant {P : Search → Prop} (hstart : P (start g))
    (hstep : ∀ s s', Reached g s → P s → Step g s s' → P s') {s : Search}
    (h : Reached g s) : P s := by
  induction h with
  | refl => exact hstart
  | tail hs hstep' ih => exact hstep _ _ hs ih hstep'

theorem Reached.run {s : Search} (h : Reached g s) : Reached g (s.run g) := by
  fun_induction s.run g with
  | case1 s _ => exact h
  | case2 s s' hnext ih => exact ih (ReflTransGen.tail h (step_of_next? hnext))

theorem next?_run (s : Search) : (s.run g).next? g = none := by
  fun_induction s.run g with
  | case1 s hnext => exact hnext
  | case2 s s' _ ih => exact ih

theorem run_of_next?_none {s : Search} (h : s.next? g = none) :
    s.run g = s := by
  rw [run]
  split
  · rfl
  · next s' hnext =>
    rw [h] at hnext
    cases hnext

theorem run_of_next? {s s' : Search} (h : s.next? g = some s') :
    s.run g = s'.run g := by
  rw [run]
  split
  · next hnone =>
    rw [h] at hnone
    cases hnone
  · next s'' hnext =>
    rw [h] at hnext
    rw [Option.some.inj hnext]

/-- Graphs with the same steps have the same runs. -/
theorem run_congr {g' : Graph} (hstep : ∀ s : Search, s.next? g = s.next? g')
    (s : Search) : s.run g = s.run g' := by
  fun_induction s.run g with
  | case1 s hnone =>
      rw [hstep] at hnone
      exact (run_of_next?_none hnone).symm
  | case2 s s' hnext ih =>
      rw [hstep] at hnext
      rw [ih, run_of_next? hnext]

theorem reached_search (g : Graph) : Reached g g.search :=
  Reached.run ReflTransGen.refl

theorem chain_search (g : Graph) : g.search.chain = [] :=
  (chain_of_next?_none (next?_run (start g))).1

theorem roots_search (g : Graph) : g.search.roots = [] :=
  (chain_of_next?_none (next?_run (start g))).2

end Search

end ModuleAtlas
