/-
Measuring dependency chains on the way.

# A walk of its own

The lengths of chains can be kept up to date while the graph is walked
(`Measuring`). Such a walk has no use for the names never entered or for
loops. It keeps a best length so far for each name that it is in, and a
length for good for each name that it left. A target that was left raises
the best length of the name that leads to it, and so does a name that is
left now; a target on the chain says nothing. Each raise asks the tables
for lengths that have to be there.

# The same way

The walk goes where the search goes, step by step (`Keeps.next`). What
was left is what has a length, and the best length at a name of the chain
is the one over the targets looked at there (`Keeps`). That a name left
now counts at the name around it only is a matter of the chain: further
out it was not looked at before (`Sound.not_mem_looked`). So no lookup
fails, and the walk ends with the lengths taken in the order of leaving
(`ends_iff`).
-/
import ModuleAtlas.Proofs.Graph.Depth
import ModuleAtlas.Proofs.Success

namespace ModuleAtlas

open Relation

-- ============================================================ the walk

/-- A walk that measures: the lengths of the names it left, the best
lengths so far of those it entered from the present starting point, the
starting points to come, and the chain. -/
structure Measuring where
  known : OrderedMap Nat
  best : OrderedMap Nat
  roots : List String
  chain : List Frame

namespace Measuring

variable (g : Graph)

def start : Measuring where
  known := .empty
  best := .empty
  roots := g.nodes.keys
  chain := []

/-- The length that a table has for a name; a name it does not have is
what the lookup fails with. -/
def lookUp (table : OrderedMap Nat) (v : String) : Except String Nat :=
  match table.find? v with
  | some d => .ok d
  | none => .error v

/-- Over a target of length `d`, chains from `v` are longer by one. -/
def raise (best : OrderedMap Nat) (v : String) (d : Nat) : Except String (OrderedMap Nat) := do
  let b ← lookUp best v
  return best.upsert v fun _ => max b (d + 1)

/-- The walk after it went into `v`. -/
def enter (m : Measuring) (v : String) : Measuring :=
  { m with best := m.best.upsert v fun _ => 0, chain := ⟨v, g.targets v⟩ :: m.chain }

/-- The next step, if there is anything left to do. It fails if a length
is missing that it asks for. -/
def next? (m : Measuring) : Option (Except String Measuring) :=
  match m.chain with
  | [] =>
    match m.roots with
    | [] => none
    | r :: roots =>
      some <| .ok <| if m.known.contains r then { m with roots := roots }
        else { m with roots := roots, best := .empty }.enter g r
  | ⟨v, []⟩ :: outer => some do
    let d ← lookUp m.best v
    let best ← match outer with
      | [] => pure m.best
      | f :: _ => raise m.best f.name d
    return { m with known := m.known.upsert v fun _ => d, best := best, chain := outer }
  | ⟨v, w :: pending⟩ :: outer =>
    let m := { m with chain := ⟨v, pending⟩ :: outer }
    some <| if w ∈ m.chain.map Frame.name then .ok m
      else match m.known.find? w with
        | some d => do return { m with best := ← raise m.best v d }
        | none => .ok (m.enter g w)

/-- One step that succeeds. -/
def Step (m m' : Measuring) : Prop := m.next? g = some (.ok m')

/-- The walk comes to an end, and these are the lengths known then. -/
def Ends (known : OrderedMap Nat) : Prop :=
  ∃ m, ReflTransGen (Step g) (start g) m ∧ m.next? g = none ∧ m.known = known

end Measuring

-- ====================================================== known lengths

namespace Graph

variable {g : Graph}

/-- One more target counts if its length is known. -/
theorem depthOver_concat (known : OrderedMap Nat) (looked : List String) (w : String) :
    depthOver known (looked ++ [w]) =
      match known.find? w with
      | none => depthOver known looked
      | some d => max (depthOver known looked) (d + 1) :=
  List.foldl_concat ..

/-- A length counts over the targets that have it only. -/
theorem depthOver_upsert_of_notMem {known : OrderedMap Nat} {looked : List String}
    {v : String} (hv : v ∉ looked) (f : Option Nat → Nat) :
    depthOver (known.upsert v f) looked = depthOver known looked := by
  induction looked using List.reverseRecOn with
  | nil => rfl
  | append_singleton looked w ih =>
      have hw : w ≠ v := fun h => hv (by simp [h])
      rw [depthOver_concat, depthOver_concat, OrderedMap.find?_upsert, if_neg hw,
        ih fun h => hv (List.mem_append_left _ h)]

end Graph

-- ==================================================== one name at a time

namespace Measuring

variable {g : Graph} {known best : OrderedMap Nat} {v w : String}
    {pending : List String} {f : Frame} {b d : Nat}

theorem lookUp_eq (h : known.find? v = some d) : lookUp known v = .ok d := by
  unfold lookUp
  rw [h]

theorem raise_eq (h : best.find? v = some b) :
    raise best v d = .ok (best.upsert v fun _ => max b (d + 1)) := by
  unfold raise
  rw [lookUp_eq h]
  rfl

/-- The best length at the name of the frame is the one over the targets
that were looked at there. -/
def Weighed (g : Graph) (known best : OrderedMap Nat) (f : Frame) : Prop :=
  ∃ looked, g.targets f.name = looked ++ f.pending ∧
    best.find? f.name = some (Graph.depthOver known looked)

theorem weighed_entered (known best : OrderedMap Nat) (v : String) :
    Weighed g known (best.upsert v fun _ => 0) ⟨v, g.targets v⟩ :=
  ⟨[], rfl, by rw [OrderedMap.find?_upsert, if_pos rfl]; rfl⟩

namespace Weighed

/-- What is written for one name does not concern the others. -/
theorem upsert (h : Weighed g known best f) (hv : f.name ≠ v) (n : Nat) :
    Weighed g known (best.upsert v fun _ => n) f := by
  obtain ⟨looked, htargets, hbest⟩ := h
  exact ⟨looked, htargets, by rw [OrderedMap.find?_upsert, if_neg hv, hbest]⟩

/-- A target without a length does not count. -/
theorem skip (h : Weighed g known best ⟨v, w :: pending⟩) (hw : known.find? w = none) :
    Weighed g known best ⟨v, pending⟩ := by
  obtain ⟨looked, htargets, hbest⟩ := h
  refine ⟨looked ++ [w], by simpa using htargets, ?_⟩
  rw [hbest, Graph.depthOver_concat, hw]

/-- A target with a length is counted. -/
theorem count (h : Weighed g known best ⟨v, w :: pending⟩) (hw : known.find? w = some d) :
    ∃ n, raise best v d = .ok (best.upsert v fun _ => n) ∧
      Weighed g known (best.upsert v fun _ => n) ⟨v, pending⟩ := by
  obtain ⟨looked, htargets, hbest⟩ := h
  refine ⟨_, raise_eq hbest, looked ++ [w], by simpa using htargets, ?_⟩
  rw [OrderedMap.find?_upsert, if_pos rfl, Graph.depthOver_concat, hw]

/-- A new length does not concern a name that does not lead to it yet. -/
theorem learn (h : Weighed g known best f)
    (hv : ∀ looked, g.targets f.name = looked ++ f.pending → v ∉ looked) (n : Nat) :
    Weighed g (known.upsert v fun _ => n) best f := by
  obtain ⟨looked, htargets, hbest⟩ := h
  refine ⟨looked, htargets, ?_⟩
  rw [hbest, Graph.depthOver_upsert_of_notMem (hv looked htargets)]

end Weighed

-- ============================================================ its steps

variable {roots : List String} {outer : List Frame} {r : String}

theorem step_root_old (hr : known.find? r = some d) :
    Step g ⟨known, best, r :: roots, []⟩ ⟨known, best, roots, []⟩ := by
  simp [Step, next?, OrderedMap.contains, hr]

theorem step_root_new (hr : known.find? r = none) :
    Step g ⟨known, best, r :: roots, []⟩
      ⟨known, OrderedMap.empty.upsert r fun _ => 0, roots, [⟨r, g.targets r⟩]⟩ := by
  simp [Step, next?, OrderedMap.contains, hr, enter]

theorem step_leave_root (hv : best.find? v = some d) :
    Step g ⟨known, best, roots, [⟨v, []⟩]⟩
      ⟨known.upsert v fun _ => d, best, roots, []⟩ := by
  unfold Step next?
  dsimp only
  rw [lookUp_eq hv]
  rfl

theorem step_leave_inside {best' : OrderedMap Nat} (hv : best.find? v = some d)
    (hf : raise best f.name d = .ok best') :
    Step g ⟨known, best, roots, ⟨v, []⟩ :: f :: outer⟩
      ⟨known.upsert v fun _ => d, best', roots, f :: outer⟩ := by
  unfold Step next?
  dsimp only
  rw [lookUp_eq hv, Success.ok_bind, hf]
  rfl

theorem step_back (hw : w ∈ (⟨v, pending⟩ :: outer : List Frame).map Frame.name) :
    Step g ⟨known, best, roots, ⟨v, w :: pending⟩ :: outer⟩
      ⟨known, best, roots, ⟨v, pending⟩ :: outer⟩ := by
  unfold Step next?
  dsimp only
  rw [if_pos hw]

theorem step_count {best' : OrderedMap Nat}
    (hw : w ∉ (⟨v, pending⟩ :: outer : List Frame).map Frame.name)
    (hd : known.find? w = some d) (hv : raise best v d = .ok best') :
    Step g ⟨known, best, roots, ⟨v, w :: pending⟩ :: outer⟩
      ⟨known, best', roots, ⟨v, pending⟩ :: outer⟩ := by
  unfold Step next?
  dsimp only
  rw [if_neg hw, hd]
  dsimp only
  rw [hv]
  rfl

theorem step_new (hw : w ∉ (⟨v, pending⟩ :: outer : List Frame).map Frame.name)
    (hd : known.find? w = none) :
    Step g ⟨known, best, roots, ⟨v, w :: pending⟩ :: outer⟩
      ⟨known, best.upsert w fun _ => 0, roots,
        ⟨w, g.targets w⟩ :: ⟨v, pending⟩ :: outer⟩ := by
  unfold Step next?
  dsimp only
  rw [if_neg hw, hd]
  rfl

end Measuring

-- ========================================================= what is kept

namespace Search

variable {g : Graph} {s s' : Search} {m : Measuring}

theorem Sound.nodup_chain (h : Sound g s) : (s.chain.map Frame.name).Nodup :=
  (List.nodup_append.1 h.nodup).1

/-- What was looked at around a name ends in that name, and holds none of
those inside of it. -/
theorem Sound.looked_around (h : Sound g s) {inner outer : List Frame} {x f : Frame}
    (hc : s.chain = inner ++ x :: f :: outer) {looked : List String}
    (hlooked : g.targets f.name = looked ++ f.pending) :
    ∃ earlier, looked = earlier ++ [x.name] ∧
      ∀ z ∈ x.name :: inner.map Frame.name, z ∉ earlier := by
  obtain ⟨earlier, hsplit, -, hno⟩ := h.taken inner x (f :: outer) hc
  have htargets : looked ++ f.pending = earlier ++ [x.name] ++ f.pending := by
    rw [← hlooked, List.append_assoc]
    exact hsplit
  refine ⟨earlier, List.append_cancel_right htargets, fun z hz hmem => ?_⟩
  refine hno z hmem z hz (.here fun hout => ?_)
  have hnodup := h.nodup_chain
  rw [hc, List.map_append, List.map_cons] at hnodup
  obtain ⟨-, hx, hinner⟩ := List.nodup_append.1 hnodup
  rcases List.mem_cons.1 hz with rfl | hz
  · exact (List.nodup_cons.1 hx).1 hout
  · exact hinner z hz z (List.mem_cons_of_mem _ hout) rfl

/-- The innermost name was not looked at further out than at the name
around it. -/
theorem Sound.innermost_not_mem_looked (h : Sound g s) {x y f : Frame} {outer : List Frame}
    (hc : s.chain = x :: y :: outer) (hf : f ∈ outer) {looked : List String}
    (hlooked : g.targets f.name = looked ++ f.pending) : x.name ∉ looked := by
  obtain ⟨between, outside, rfl⟩ := List.append_of_mem hf
  obtain ⟨inside, z, hz⟩ : ∃ inside z, y :: between = inside ++ [z] :=
    ⟨_, _, (List.dropLast_append_getLast (List.cons_ne_nil y between)).symm⟩
  have hc' : s.chain = (x :: inside) ++ z :: f :: outside := by
    rw [hc, ← List.cons_append, hz]
    simp
  obtain ⟨earlier, rfl, hearlier⟩ := h.looked_around hc' hlooked
  have hnodup := h.nodup_chain
  rw [hc'] at hnodup
  intro hmem
  rcases List.mem_append.1 hmem with hmem | hmem
  · exact hearlier x.name (by simp) hmem
  · rw [List.cons_append, List.map_cons, List.mem_singleton.1 hmem] at hnodup
    exact (List.nodup_cons.1 hnodup).1 (by simp)

/-- The walk that measures is where the search is. It has a length for
each name that the search left, and a best length for each name of the
chain. -/
structure Keeps (g : Graph) (s : Search) (m : Measuring) : Prop where
  roots : m.roots = s.roots
  chain : m.chain = s.chain
  known : m.known = g.depthsIn s.left.reverse
  best : ∀ f ∈ s.chain, Measuring.Weighed g m.known m.best f

theorem keeps_start (g : Graph) : Keeps g (start g) (.start g) where
  roots := rfl
  chain := rfl
  known := rfl
  best f hf := by cases hf

namespace Keeps

/-- What has a length is what was left. -/
theorem exists_find?_iff (h : Keeps g s m) (hs : Sound g s) {v : String} :
    (∃ d, m.known.find? v = some d) ↔ v ∈ s.left := by
  have hleft := (List.nodup_append.1 hs.nodup).2.1
  rw [← OrderedMap.mem_keys_iff, h.known,
    Graph.keys_depthsIn (List.nodup_reverse.2 hleft), List.mem_reverse]

theorem find?_eq_none (h : Keeps g s m) (hs : Sound g s) {v : String}
    (hv : v ∉ s.left) : m.known.find? v = none := by
  rw [Option.eq_none_iff_forall_ne_some]
  exact fun d hd => hv ((h.exists_find?_iff hs).1 ⟨d, hd⟩)

/-- Both go into a new name. -/
theorem enter (h : Keeps g s m) (hs : Sound g s) {w : String} {rest : List String}
    (hw : pending s.roots s.chain = w :: rest) (hnew : w ∈ s.unseen) :
    ∃ m', Measuring.Step g m m' ∧ Keeps g (s.advance.enter g w) m' := by
  have hfresh := ((hs.unseen_iff w).1 hnew).2
  have hout : w ∉ s.chainNames := fun hc => hfresh (List.mem_append_left _ hc)
  have hother : ∀ f ∈ s.advance.chain, f.name ≠ w := by
    rintro f hf rfl
    rw [← chainNames_advance s] at hout
    exact hout (List.mem_map_of_mem hf)
  have hknown := h.find?_eq_none hs fun hl => hfresh (List.mem_append_right _ hl)
  obtain ⟨unseen, roots, chain, left, loops⟩ := s
  obtain ⟨known, best, roots', chain'⟩ := m
  obtain rfl : roots' = roots := h.roots
  obtain rfl : chain' = chain := h.chain
  cases chain' with
  | nil =>
      obtain rfl : roots' = w :: rest := hw
      refine ⟨_, Measuring.step_root_new hknown, rfl, rfl, h.known, fun f hf => ?_⟩
      rw [List.mem_singleton.1 hf]
      exact Measuring.weighed_entered ..
  | cons f outer =>
      obtain ⟨v, pending⟩ := f
      obtain rfl : pending = w :: rest := hw
      refine ⟨_, Measuring.step_new hout hknown, rfl, rfl, h.known, fun f hf => ?_⟩
      rcases List.mem_cons.1 hf with rfl | hf
      · exact Measuring.weighed_entered ..
      · refine Measuring.Weighed.upsert ?_ (hother f hf) 0
        rcases List.mem_cons.1 hf with rfl | hf
        · exact (h.best _ (List.mem_cons_self ..)).skip hknown
        · exact h.best f (List.mem_cons_of_mem _ hf)

/-- The search records a loop, and the walk does nothing. -/
theorem close (h : Keeps g s m) (hs : Sound g s) {w : String} {rest : List String}
    (hw : pending s.roots s.chain = w :: rest) (hin : w ∈ s.chainNames)
    (loops : List (List String)) :
    ∃ m', Measuring.Step g m m' ∧ Keeps g { s.advance with loops := loops } m' := by
  have hknown := h.find?_eq_none hs (hs.not_mem_left hin)
  obtain ⟨unseen, roots, chain, left, loops'⟩ := s
  obtain ⟨known, best, roots', chain'⟩ := m
  obtain rfl : roots' = roots := h.roots
  obtain rfl : chain' = chain := h.chain
  cases chain' with
  | nil => cases hin
  | cons f outer =>
      obtain ⟨v, pending⟩ := f
      obtain rfl : pending = w :: rest := hw
      refine ⟨_, Measuring.step_back hin, rfl, rfl, h.known, fun f hf => ?_⟩
      rcases List.mem_cons.1 hf with rfl | hf
      · exact (h.best _ (List.mem_cons_self ..)).skip hknown
      · exact h.best f (List.mem_cons_of_mem _ hf)

/-- Both pass over a name that was left, and the walk counts it. -/
theorem pass (h : Keeps g s m) (hs : Sound g s) {w : String} {rest : List String}
    (hw : pending s.roots s.chain = w :: rest) (hold : w ∉ s.unseen)
    (hout : w ∉ s.chainNames) :
    ∃ m', Measuring.Step g m m' ∧ Keeps g s.advance m' := by
  have hleft := (List.mem_append.1 (hs.seen_of_not_unseen hw hold)).resolve_left hout
  obtain ⟨d, hd⟩ := (h.exists_find?_iff hs).2 hleft
  have hnodup := hs.nodup_chain
  obtain ⟨unseen, roots, chain, left, loops⟩ := s
  obtain ⟨known, best, roots', chain'⟩ := m
  obtain rfl : roots' = roots := h.roots
  obtain rfl : chain' = chain := h.chain
  cases chain' with
  | nil =>
      obtain rfl : roots' = w :: rest := hw
      exact ⟨_, Measuring.step_root_old hd, rfl, rfl, h.known, h.best⟩
  | cons f outer =>
      obtain ⟨v, pending⟩ := f
      obtain rfl : pending = w :: rest := hw
      obtain ⟨n, hraise, hweighed⟩ := (h.best _ (List.mem_cons_self ..)).count hd
      refine ⟨_, Measuring.step_count hout hd hraise, rfl, rfl, h.known, fun f hf => ?_⟩
      rcases List.mem_cons.1 hf with rfl | hf
      · exact hweighed
      · refine (h.best f (List.mem_cons_of_mem _ hf)).upsert ?_ n
        intro hname
        have hmem := List.mem_map_of_mem (f := Frame.name) hf
        rw [hname] at hmem
        exact (List.nodup_cons.1 hnodup).1 hmem

/-- Both leave the innermost name, and the walk counts it at the name
around it. Further out it was not looked at. -/
theorem leave (h : Keeps g s m) (hs : Sound g s) {v : String} {outer : List Frame}
    (hc : s.chain = ⟨v, []⟩ :: outer) :
    ∃ m', Measuring.Step g m m' ∧
      Keeps g { s with chain := outer, left := v :: s.left } m' := by
  have hin : v ∈ s.chainNames := by
    unfold chainNames
    rw [hc]
    exact List.mem_cons_self ..
  have hunknown := h.find?_eq_none hs (hs.not_mem_left hin)
  obtain ⟨known, best, roots', chain'⟩ := m
  obtain rfl : roots' = s.roots := h.roots
  obtain rfl : chain' = s.chain := h.chain
  obtain ⟨looked, htargets, hbest⟩ := h.best ⟨v, []⟩ (by rw [hc]; exact List.mem_cons_self ..)
  obtain rfl : looked = g.targets v := by simpa using htargets.symm
  have hlearned : known.upsert v (fun _ => Graph.depthOver known (g.targets v)) =
      g.depthsIn (v :: s.left).reverse := by
    rw [List.reverse_cons, Graph.depthsIn_concat, ← h.known]
  have hstay := h.best
  rw [hc] at hstay ⊢
  cases outer with
  | nil =>
      exact ⟨_, Measuring.step_leave_root hbest, rfl, rfl, hlearned, fun f hf => by cases hf⟩
  | cons f outer =>
      -- the name around it looked at it last
      obtain ⟨looked, hlooked, hf⟩ := hstay f (by simp)
      have hinnermost : s.chain = [] ++ ⟨v, []⟩ :: f :: outer := hc
      obtain ⟨earlier, rfl, hearlier⟩ := hs.looked_around hinnermost hlooked
      rw [Graph.depthOver_concat, hunknown] at hf
      refine ⟨_, Measuring.step_leave_inside hbest (Measuring.raise_eq hf), rfl, rfl,
        hlearned, fun f' hf' => ?_⟩
      rcases List.mem_cons.1 hf' with rfl | hf'
      · refine ⟨_, hlooked, ?_⟩
        rw [OrderedMap.find?_upsert, if_pos rfl, Graph.depthOver_concat,
          Graph.depthOver_upsert_of_notMem (hearlier v (List.mem_cons_self ..)),
          OrderedMap.find?_upsert, if_pos rfl]
      · have hlater := Measuring.Weighed.learn (hstay f' (by simp [hf']))
          fun looked hlooked => hs.innermost_not_mem_looked hc hf' hlooked
        refine Measuring.Weighed.upsert (hlater _) (fun hname => ?_) _
        have hnodup := hs.nodup_chain
        rw [hc, List.map_cons, List.map_cons, List.nodup_cons, List.nodup_cons] at hnodup
        exact hnodup.2.1 (hname ▸ List.mem_map_of_mem hf')

end Keeps

theorem Step.keeps (hstep : Step g s s') (hs : Sound g s) (h : Keeps g s m) :
    ∃ m', Measuring.Step g m m' ∧ Keeps g s' m' := by
  cases hstep with
  | enter hw hnew => exact h.enter hs hw hnew
  | close hw _ hin => exact h.close hs hw hin _
  | pass hw hold hout => exact h.pass hs hw hold hout
  | leave hc => exact h.leave hs hc

/-- Where the search comes to, the walk that measures does as well. -/
theorem Reached.exists_keeps (h : Reached g s) :
    ∃ m, ReflTransGen (Measuring.Step g) (.start g) m ∧ Keeps g s m := by
  refine h.invariant
    (P := fun s => ∃ m, ReflTransGen (Measuring.Step g) (.start g) m ∧ Keeps g s m)
    ⟨_, .refl, keeps_start g⟩ fun s s' hs hkeeps hstep => ?_
  obtain ⟨m, hm, hkeeps⟩ := hkeeps
  obtain ⟨m', hm', hkeeps'⟩ := hstep.keeps hs.sound hkeeps
  exact ⟨m', hm.tail hm', hkeeps'⟩

end Search

-- ============================================================== the end

namespace Measuring

variable {g : Graph}

/-- There is one next step. -/
theorem rightUnique_step (g : Graph) : Relator.RightUnique (Step g) := by
  intro a b c hb hc
  rw [Step, hc] at hb
  exact (Except.ok.inj (Option.some.inj hb)).symm

/-- Where the search has nothing left to do, the walk has not either. -/
theorem next?_eq_none {s : Search} {m : Measuring} (h : Search.Keeps g s m)
    (hchain : s.chain = []) (hroots : s.roots = []) : m.next? g = none := by
  unfold next?
  rw [h.chain, h.roots, hchain, hroots]

/-- The walk ends, and it ends with the lengths taken in the order of
leaving. -/
theorem ends_iff {known : OrderedMap Nat} : Ends g known ↔ known = g.depths := by
  obtain ⟨m, hreached, hkeeps⟩ := (Search.reached_search g).exists_keeps
  have hstop : m.next? g = none :=
    next?_eq_none hkeeps (Search.chain_search g) (Search.roots_search g)
  constructor
  · intro h
    obtain ⟨m', hreached', hstop', rfl⟩ := h
    have hstuck : ∀ {a b : Measuring}, a.next? g = none →
        ReflTransGen (Step g) a b → b = a := by
      intro a b ha hab
      refine (ReflTransGen.cases_head hab).elim Eq.symm fun hstep => ?_
      obtain ⟨c, hac, -⟩ := hstep
      rw [Step, ha] at hac
      cases hac
    rcases ReflTransGen.total_of_right_unique (rightUnique_step g) hreached hreached' with hrun | hrun
    · rw [hstuck hstop hrun, hkeeps.known]
      rfl
    · rw [← hstuck hstop' hrun, hkeeps.known]
      rfl
  · intro h
    rw [h]
    exact ⟨m, hreached, hstop, hkeeps.known⟩

end Measuring

end ModuleAtlas
