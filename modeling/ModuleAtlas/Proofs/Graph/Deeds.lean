/-
What a walk through the graph does.

# Deeds

A walk enters names, looks at the edges from there, and leaves names again
(`Deed`). A machine whose steps say what they did leaves a record of its run
behind (`Trace`), whatever tables it keeps for itself. It was thorough if each
name that can be reached was entered once, each edge from there was looked at
once, in its turn, and nothing else was done (`Thorough`).

# The record of the search

Of the search it is known where it is with every edge (`Recorded`): at a name
that was left all of them were looked at, at a name of the chain those before
the pending ones, and at any other name none. A step adds to the record what
it does (`Step.recorded`), so in the end the record is thorough.

# Walks beside the search

A machine that does the deeds of the search step by step (`Follows`) has the
record of the search. So it never fails, and it comes to an end where the
search does (`Follows.not_failing`, `Follows.exists_end`).
-/
import ModuleAtlas.Proofs.Graph.SearchLoops

namespace ModuleAtlas

-- =============================================================== deeds

/-- What a walk does: it enters a name, looks at an edge from one name to
another, or leaves a name. -/
inductive Deed where
  | enter (v : String)
  | look (v w : String)
  | leave (v : String)
  deriving Repr, DecidableEq

namespace Deed

variable {record new : List Deed} {u v w : String}

/-- The names that were entered, in order. -/
def entered (record : List Deed) : List String :=
  record.filterMap fun
    | enter v => some v
    | _ => none

/-- The names that were left, in order. -/
def finished (record : List Deed) : List String :=
  record.filterMap fun
    | leave v => some v
    | _ => none

/-- The targets of the edges from `v` that were looked at, in order. -/
def lookedAt (v : String) (record : List Deed) : List String :=
  record.filterMap fun
    | look u w => if u = v then some w else none
    | _ => none

@[simp] theorem entered_append : entered (record ++ new) = entered record ++ entered new :=
  List.filterMap_append

@[simp] theorem finished_append :
    finished (record ++ new) = finished record ++ finished new :=
  List.filterMap_append

@[simp] theorem lookedAt_append :
    lookedAt v (record ++ new) = lookedAt v record ++ lookedAt v new :=
  List.filterMap_append

@[simp] theorem entered_enter : entered [enter v] = [v] := rfl

@[simp] theorem finished_enter : finished [enter v] = [] := rfl

@[simp] theorem lookedAt_enter : lookedAt u [enter v] = [] := rfl

@[simp] theorem entered_leave : entered [leave v] = [] := rfl

@[simp] theorem finished_leave : finished [leave v] = [v] := rfl

@[simp] theorem lookedAt_leave : lookedAt u [leave v] = [] := rfl

end Deed

/-- Each name that can be reached was entered once and left, and all edges
from there were looked at in their order. Nothing else was. -/
structure Thorough (g : Graph) (record : List Deed) : Prop where
  nodup_entered : (Deed.entered record).Nodup
  mem_entered_iff : ∀ v, v ∈ Deed.entered record ↔ g.Reachable v
  finished_perm : (Deed.finished record).Perm (Deed.entered record)
  lookedAt_reachable : ∀ v, g.Reachable v → Deed.lookedAt v record = g.targets v
  lookedAt_elsewhere : ∀ v, ¬ g.Reachable v → Deed.lookedAt v record = []

-- ============================================================== traces

variable {σ : Type} {next? : σ → Option (Except String (List Deed × σ))} {first m : σ}
    {record : List Deed}

/-- From the start, steps that succeed come to `m`, and these are their
deeds. -/
inductive Trace (next? : σ → Option (Except String (List Deed × σ))) (first : σ) :
    List Deed → σ → Prop
  | start : Trace next? first [] first
  | step {record new : List Deed} {m m' : σ} (h : Trace next? first record m)
      (hnext : next? m = some (.ok (new, m'))) : Trace next? first (record ++ new) m'

-- ======================================================== of the search

namespace Search

variable {g : Graph} {s s' : Search} {chain : List Frame} {v w : String} {rest : List String}

/-- To look at a choice of the innermost name is to look at an edge; the nodes
of the graph are looked at without one. -/
def looks (chain : List Frame) (w : String) : List Deed :=
  (chain.head?.map fun f => Deed.look f.name w).toList

/-- What the next step does. -/
def deeds (s : Search) : List Deed :=
  match pending s.roots s.chain with
  | w :: _ => looks s.chain w ++ if w ∈ s.unseen then [.enter w] else []
  | [] => (s.chain.head?.map fun f => Deed.leave f.name).toList

theorem deeds_of_new (hw : pending s.roots s.chain = w :: rest) (hnew : w ∈ s.unseen) :
    s.deeds = looks s.chain w ++ [.enter w] := by
  unfold deeds
  rw [hw]
  exact congrArg _ (if_pos hnew)

theorem deeds_of_old (hw : pending s.roots s.chain = w :: rest) (hold : w ∉ s.unseen) :
    s.deeds = looks s.chain w := by
  unfold deeds
  rw [hw]
  dsimp only
  rw [if_neg hold, List.append_nil]

theorem deeds_of_leave {outer : List Frame} (hc : s.chain = ⟨v, []⟩ :: outer) :
    s.deeds = [.leave v] := by
  unfold deeds
  rw [hc]
  rfl

@[simp] theorem entered_looks : Deed.entered (looks chain w) = [] := by
  cases chain <;> rfl

@[simp] theorem finished_looks : Deed.finished (looks chain w) = [] := by
  cases chain <;> rfl

theorem lookedAt_looks_of_ne (h : s.chainNames.head? ≠ some v) :
    Deed.lookedAt v (looks s.chain w) = [] := by
  unfold looks
  unfold chainNames at h
  cases hc : s.chain with
  | nil => rfl
  | cons f outer =>
      have hne : f.name ≠ v := by simpa [hc] using h
      simp [Deed.lookedAt, hne]

-- ------------------------------------------------------- the record

/-- Where the search is with each edge. -/
structure Recorded (g : Graph) (s : Search) (record : List Deed) : Prop where
  entered : (Deed.entered record).Perm s.seen
  finished : Deed.finished record = s.left.reverse
  onChain : ∀ f ∈ s.chain, Deed.lookedAt f.name record ++ f.pending = g.targets f.name
  onLeft : ∀ v ∈ s.left, Deed.lookedAt v record = g.targets v
  elsewhere : ∀ v, v ∉ s.seen → Deed.lookedAt v record = []

theorem recorded_start (g : Graph) : Recorded g (start g) [] where
  entered := .nil
  finished := rfl
  onChain f hf := by cases hf
  onLeft v hv := by cases hv
  elsewhere v _ := rfl

namespace Recorded

/-- A choice is looked at where it was pending. -/
theorem look (h : Recorded g s record) (hs : Sound g s)
    (hw : pending s.roots s.chain = w :: rest) :
    Recorded g s.advance (record ++ looks s.chain w) := by
  -- nothing changes but at the innermost name
  have hother : ∀ v, s.chainNames.head? ≠ some v →
      Deed.lookedAt v (record ++ looks s.chain w) = Deed.lookedAt v record := by
    intro v hv
    rw [Deed.lookedAt_append, lookedAt_looks_of_ne hv, List.append_nil]
  have hhead : ∀ v, s.chainNames.head? = some v → v ∈ s.chainNames :=
    fun v => List.mem_of_head?
  refine ⟨?_, ?_, ?_, ?_, ?_⟩
  · simpa using h.entered
  · simpa using h.finished
  · have hnodup := (List.nodup_append.1 hs.nodup).1
    have hchain := h.onChain
    unfold advance
    unfold chainNames at hother hnodup
    cases hc : s.chain with
    | nil => intro f hf; cases hf
    | cons top outer =>
        obtain ⟨v, pending⟩ := top
        rw [hc] at hw hother hnodup hchain
        obtain rfl : pending = w :: rest := hw
        intro f hf
        rcases List.mem_cons.1 hf with rfl | hf
        · have htop := hchain ⟨v, w :: rest⟩ List.mem_cons_self
          simpa [looks, hc, Deed.lookedAt] using htop
        · have hne : some v ≠ some f.name := by
            intro heq
            have hmem := List.mem_map_of_mem (f := Frame.name) hf
            rw [← Option.some.inj heq] at hmem
            exact (List.nodup_cons.1 hnodup).1 hmem
          rw [hother f.name hne]
          exact hchain f (List.mem_cons_of_mem _ hf)
  · intro v hv
    rw [left_advance] at hv
    rw [hother v fun hv' => hs.not_mem_left (hhead v hv') hv]
    exact h.onLeft v hv
  · intro v hv
    rw [seen_advance] at hv
    rw [hother v fun hv' => hv (List.mem_append_left _ (hhead v hv'))]
    exact h.elsewhere v hv

/-- At a name that is new nothing was looked at yet. -/
theorem enter (h : Recorded g s record) (hnew : w ∉ s.seen) :
    Recorded g (s.enter g w) (record ++ [.enter w]) := by
  have hseen : (s.enter g w).seen = w :: s.seen := rfl
  refine ⟨?_, ?_, ?_, ?_, ?_⟩
  · rw [hseen, Deed.entered_append]
    exact (List.perm_append_comm).trans (h.entered.cons w)
  · simpa [Search.enter] using h.finished
  · intro f hf
    rw [Deed.lookedAt_append, Deed.lookedAt_enter, List.append_nil]
    rcases List.mem_cons.1 hf with rfl | hf
    · rw [h.elsewhere w hnew]
      rfl
    · exact h.onChain f hf
  · intro v hv
    simpa using h.onLeft v hv
  · intro v hv
    rw [hseen] at hv
    simpa using h.elsewhere v fun hmem => hv (List.mem_cons_of_mem _ hmem)

/-- At a name that is left everything was looked at. -/
theorem leave (h : Recorded g s record) {outer : List Frame} (hc : s.chain = ⟨v, []⟩ :: outer) :
    Recorded g { s with chain := outer, left := v :: s.left } (record ++ [.leave v]) := by
  have hperm : s.seen.Perm (outer.map Frame.name ++ v :: s.left) := by
    unfold seen chainNames
    rw [hc]
    exact List.perm_middle.symm
  have hchain := h.onChain
  rw [hc, List.forall_mem_cons] at hchain
  refine ⟨?_, ?_, ?_, ?_, ?_⟩
  · rw [Deed.entered_append, Deed.entered_leave, List.append_nil]
    exact h.entered.trans hperm
  · simp [h.finished]
  · intro f hf
    simpa using hchain.2 f hf
  · intro u hu
    rw [Deed.lookedAt_append, Deed.lookedAt_leave, List.append_nil]
    rcases List.mem_cons.1 hu with rfl | hu
    · simpa using hchain.1
    · exact h.onLeft u hu
  · intro u hu
    simpa using h.elsewhere u fun hmem => hu (hperm.mem_iff.1 hmem)

/-- The record does not depend on the loops that were met. -/
theorem loops (h : Recorded g s record) (loops : List (List String)) :
    Recorded g { s with loops := loops } record :=
  ⟨h.entered, h.finished, h.onChain, h.onLeft, h.elsewhere⟩

/-- A name of the chain was entered and is not left. -/
theorem unfinished (h : Recorded g s record) (hs : Sound g s)
    (hv : v ∈ s.chainNames) : v ∈ Deed.entered record ∧ v ∉ Deed.finished record := by
  rw [h.entered.mem_iff, h.finished, List.mem_reverse]
  exact ⟨List.mem_append_left _ hv, hs.not_mem_left hv⟩

/-- The record of the finished search. -/
theorem thorough (h : Recorded g g.search record) : Thorough g record := by
  have hentered := h.entered
  have helsewhere := h.elsewhere
  rw [Graph.seen_search] at hentered helsewhere
  have hleft : ∀ v, v ∈ g.search.left ↔ g.Reachable v := by
    intro v
    refine ⟨fun hv => (reached_search g).reachable v ?_, Graph.left_of_reachable⟩
    rwa [Graph.seen_search]
  refine ⟨hentered.nodup_iff.2 (Graph.nodup_left g), ?_, ?_, ?_, ?_⟩
  · intro v
    rw [hentered.mem_iff, hleft]
  · rw [h.finished]
    exact (List.reverse_perm _).trans hentered.symm
  · intro v hv
    exact h.onLeft v ((hleft v).2 hv)
  · intro v hv
    exact helsewhere v fun hmem => hv ((hleft v).1 hmem)

end Recorded

/-- A step adds to the record what it does. -/
theorem Step.recorded (hstep : Step g s s') (hs : Sound g s) (h : Recorded g s record) :
    Recorded g s' (record ++ s.deeds) := by
  cases hstep with
  | @enter w rest hw hnew =>
      have hfresh : w ∉ s.advance.seen := by
        rw [seen_advance]
        exact ((hs.unseen_iff w).1 hnew).2
      rw [deeds_of_new hw hnew, ← List.append_assoc]
      exact (h.look hs hw).enter hfresh
  | close hw hold _ =>
      rw [deeds_of_old hw hold]
      exact (h.look hs hw).loops _
  | pass hw hold _ =>
      rw [deeds_of_old hw hold]
      exact h.look hs hw
  | leave hc =>
      rw [deeds_of_leave hc]
      exact h.leave hc

end Search

-- =================================================== beside the search

/-- Beside each reached search, the machine does in one step what the search
does, and stops where it stops. -/
structure Follows (g : Graph) (next? : σ → Option (Except String (List Deed × σ))) (first : σ)
    (Beside : Search → σ → Prop) : Prop where
  start : Beside (Search.start g) first
  stops : ∀ s m, Beside s m → s.next? g = none → next? m = none
  steps : ∀ s s' m, Search.Reached g s → Beside s m → Search.Step g s s' →
    ∃ m', next? m = some (.ok (s.deeds, m')) ∧ Beside s' m'

namespace Follows

variable {g : Graph} {s : Search} {Beside : Search → σ → Prop}

/-- Wherever the machine comes to, the search does as well. -/
theorem exists_search (h : Follows g next? first Beside) (ht : Trace next? first record m) :
    ∃ s, Search.Reached g s ∧ Beside s m ∧ Search.Recorded g s record := by
  induction ht with
  | start => exact ⟨_, .refl, h.start, Search.recorded_start g⟩
  | @step record new m m' _ hnext ih =>
      obtain ⟨s, hreached, hbeside, hrecorded⟩ := ih
      cases hs : s.next? g with
      | none =>
          rw [h.stops s m hbeside hs] at hnext
          cases hnext
      | some s' =>
          have hstep := Search.step_of_next? hs
          obtain ⟨m'', hnext', hbeside'⟩ := h.steps s s' m hreached hbeside hstep
          have hsame := Except.ok.inj (Option.some.inj (hnext.symm.trans hnext'))
          obtain ⟨rfl, rfl⟩ := Prod.mk.inj hsame
          exact ⟨s', hreached.tail hstep, hbeside', hstep.recorded hreached.sound hrecorded⟩

/-- Wherever the search comes to, the machine does as well. -/
theorem exists_trace (h : Follows g next? first Beside) (hs : Search.Reached g s) :
    ∃ record m, Trace next? first record m ∧ Beside s m ∧ Search.Recorded g s record := by
  refine hs.invariant
    (P := fun s => ∃ record m,
      Trace next? first record m ∧ Beside s m ∧ Search.Recorded g s record)
    ⟨_, _, .start, h.start, Search.recorded_start g⟩ fun s s' hreached hbefore hstep => ?_
  obtain ⟨record, m, htrace, hbeside, hrecorded⟩ := hbefore
  obtain ⟨m', hnext, hbeside'⟩ := h.steps s s' m hreached hbeside hstep
  exact ⟨_, m', htrace.step hnext, hbeside', hstep.recorded hreached.sound hrecorded⟩

/-- No step fails. -/
theorem not_failing (h : Follows g next? first Beside) (ht : Trace next? first record m)
    (e : String) : next? m ≠ some (.error e) := by
  obtain ⟨s, hreached, hbeside, -⟩ := h.exists_search ht
  intro hfail
  cases hs : s.next? g with
  | none =>
      rw [h.stops s m hbeside hs] at hfail
      cases hfail
  | some s' =>
      obtain ⟨m', hnext, -⟩ := h.steps s s' m hreached hbeside (Search.step_of_next? hs)
      rw [hnext] at hfail
      cases hfail

/-- The machine comes to an end with the search, and its run was thorough. -/
theorem exists_end (h : Follows g next? first Beside) :
    ∃ record m, Trace next? first record m ∧ next? m = none ∧ Thorough g record ∧
      Beside g.search m := by
  obtain ⟨record, m, htrace, hbeside, hrecorded⟩ := h.exists_trace (Search.reached_search g)
  have hstop : next? m = none := h.stops _ m hbeside (Search.next?_run (Search.start g))
  exact ⟨record, m, htrace, hstop, hrecorded.thorough, hbeside⟩

end Follows

end ModuleAtlas
