/-
What every reached search satisfies.

# The invariant

`Sound` keeps five facts in step with each other. The names of the graph
are split into those never entered and those seen; the seen ones are
listed once, on the chain or among those left; what was looked at on the
innermost level was entered; so was every target of a name that was left
(`settled`). The fifth fact, `taken`, is about all levels at once: no
choice made before the one that the chain went on with leads to
anything further inside, unless it goes back through the chain.

# Why a wrong choice leads nowhere

The chain separates what was left from what was never entered. A walk
from a seen name to an unseen one must meet the chain
(`Sound.meets_chain`), and the names of the chain that it may meet past
the outer levels lie inside. So if the earlier choices do not lead to
the names inside, they do not lead to the next name entered either, and
`taken` survives.

What comes out is that the search enters only what can be reached
(`Reached.reachable`), and that the chain is at every moment the first
way to its innermost name (`Sound.firstWay`). Nothing else about the
order of the search is needed for what its loops are.
-/
import ModuleAtlas.Proofs.Graph.FirstWay
import ModuleAtlas.Proofs.Graph.SearchStep

namespace ModuleAtlas.Search

open ModuleAtlas.Graph

variable {g : Graph} {s : Search}

-- ======================================================= the invariant

/-- How the level `name` came about: it was taken from what there is
behind `outer`, and of what was looked at there before it, everything
was entered and nothing leads past `outer` to it or to a name `inside`
of it. -/
def TakenAt (g : Graph) (s : Search) (inside : List String) (name : String)
    (outer : List Frame) : Prop :=
  ∃ earlier, g.choices outer = earlier ++ name :: pending s.roots outer ∧
    (∀ c ∈ earlier, c ∈ s.seen) ∧
    ∀ c ∈ earlier, ∀ z ∈ name :: inside,
      ¬ g.LeadsPast (outer.map Frame.name) c z

structure Sound (g : Graph) (s : Search) : Prop where
  unseen_iff : ∀ v, v ∈ s.unseen ↔ v ∈ g.names ∧ v ∉ s.seen
  nodup : s.seen.Nodup
  looked : ∃ earlier, g.choices s.chain = earlier ++ pending s.roots s.chain ∧
    ∀ c ∈ earlier, c ∈ s.seen
  taken : ∀ inner f outer, s.chain = inner ++ f :: outer →
    TakenAt g s (inner.map Frame.name) f.name outer
  settled : ∀ v ∈ s.left, ∀ w, g.Links v w → w ∈ s.seen

theorem sound_start (g : Graph) : Sound g (start g) where
  unseen_iff v := by simp [start, seen, chainNames]
  nodup := List.nodup_nil
  looked := ⟨[], rfl, by simp⟩
  taken inner f outer hc := by simp [start] at hc
  settled v hv := by cases hv

-- ==================================================== what it tells

/-- Every choice is a name of the graph. -/
theorem mem_names_of_mem_choices {chain : List Frame} {w : String}
    (hw : w ∈ g.choices chain) : w ∈ g.names := by
  cases chain with
  | nil => exact List.mem_append_left _ hw
  | cons f outer => exact Links.mem_names (u := f.name) hw

namespace Sound

theorem pending_mem_choices (h : Sound g s) {w : String} {rest : List String}
    (hw : pending s.roots s.chain = w :: rest) : w ∈ g.choices s.chain := by
  obtain ⟨earlier, hsplit, -⟩ := h.looked
  rw [hsplit, hw]
  simp

/-- A pending choice that is not new was entered before. -/
theorem seen_of_not_unseen (h : Sound g s) {w : String} {rest : List String}
    (hw : pending s.roots s.chain = w :: rest) (hold : w ∉ s.unseen) :
    w ∈ s.seen := by
  by_contra hnot
  have hname := mem_names_of_mem_choices (h.pending_mem_choices hw)
  exact hold ((h.unseen_iff w).2 ⟨hname, hnot⟩)

/-- A pending choice is new or was entered before. -/
theorem unseen_iff_of_pending (h : Sound g s) {w : String} {rest : List String}
    (hw : pending s.roots s.chain = w :: rest) : w ∈ s.unseen ↔ w ∉ s.seen :=
  ⟨fun hnew => ((h.unseen_iff w).1 hnew).2, fun hseen => by
    by_contra hold
    exact hseen (h.seen_of_not_unseen hw hold)⟩

/-- A name on the chain was not left. -/
theorem not_mem_left (h : Sound g s) {v : String} (hv : v ∈ s.chainNames) :
    v ∉ s.left :=
  fun hl => (List.nodup_append.1 h.nodup).2.2 v hv v hl rfl

/-- Whoever walks from a seen name to one that is not meets the chain. -/
theorem meets_chain (h : Sound g s) {passed : List String} {c w : String}
    (hcw : g.LeadsPast passed c w) (hc : c ∈ s.seen) (hw : w ∉ s.seen) :
    ∃ z ∈ s.chainNames, g.LeadsPast passed c z := by
  induction hcw with
  | here => exact absurd hc hw
  | @via u x v hu hux hxv ih =>
      rcases List.mem_append.1 hc with hchain | hleft
      · exact ⟨u, hchain, .here hu⟩
      · obtain ⟨z, hz, hxz⟩ := ih (h.settled u hleft x hux) hw
        exact ⟨z, hz, .via hu hux hxz⟩

end Sound

-- ======================================================= step by step

/-- The levels of an advanced search are those of the search itself. -/
theorem split_of_advance {inner outer : List Frame} {f : Frame}
    (hc : s.advance.chain = inner ++ f :: outer) :
    ∃ inner' f', s.chain = inner' ++ f' :: outer ∧ f'.name = f.name ∧
      inner'.map Frame.name = inner.map Frame.name ∧
      s.advance.roots = s.roots := by
  unfold advance at hc ⊢
  split at hc
  · next hnil => simp [hnil] at hc
  · next top below hcons =>
    cases inner with
    | nil =>
        obtain ⟨rfl, rfl⟩ := List.cons.inj hc
        exact ⟨[], top, hcons, rfl, rfl, rfl⟩
    | cons i inner =>
        obtain ⟨rfl, rfl⟩ := List.cons.inj hc
        exact ⟨top :: inner, f, hcons, rfl, rfl, rfl⟩

namespace Sound

/-- Looking at a choice that was entered before keeps the invariant. -/
theorem advance (h : Sound g s) {w : String} {rest : List String}
    (hw : pending s.roots s.chain = w :: rest) (hold : w ∈ s.seen) :
    Sound g s.advance where
  unseen_iff v := by
    rw [unseen_advance, seen_advance]
    exact h.unseen_iff v
  nodup := by
    rw [seen_advance]
    exact h.nodup
  looked := by
    obtain ⟨earlier, hsplit, hseen⟩ := h.looked
    refine ⟨earlier ++ [w], ?_, ?_⟩
    · rw [choices_advance, pending_advance, hsplit, hw]
      simp
    · intro c hc
      rw [seen_advance]
      rcases List.mem_append.1 hc with hc | hc
      · exact hseen c hc
      · rw [List.mem_singleton.1 hc]
        exact hold
  taken inner f outer hc := by
    obtain ⟨inner', f', hc', hf, hinner, hroots⟩ := split_of_advance hc
    have ht := h.taken inner' f' outer hc'
    unfold TakenAt at ht ⊢
    rwa [seen_advance, hroots, ← hf, ← hinner]
  settled v hv x hx := by
    rw [left_advance] at hv
    rw [seen_advance]
    exact h.settled v hv x hx

/-- The loops met do not matter to it. -/
theorem record (h : Sound g s) (loops : List (List String)) :
    Sound g { s with loops := loops } :=
  ⟨h.unseen_iff, h.nodup, h.looked, h.taken, h.settled⟩

theorem mem_seen_enter {w x : String} :
    x ∈ (s.advance.enter g w).seen ↔ x = w ∨ x ∈ s.seen := by
  have hseen : (s.advance.enter g w).seen = w :: s.advance.seen := rfl
  rw [hseen, seen_advance, List.mem_cons]

/-- The level of a name just entered: what was looked at before it is
seen, so it leads to the name only through the chain, which is what it
has to keep off. -/
theorem takenAt_entered (h : Sound g s) {w : String} {rest : List String}
    (hw : pending s.roots s.chain = w :: rest) (hfresh : w ∉ s.seen) :
    TakenAt g (s.advance.enter g w) [] w s.advance.chain := by
  obtain ⟨earlier, hsplit, hseen⟩ := h.looked
  refine ⟨earlier, ?_, fun c hc => mem_seen_enter.2 (.inr (hseen c hc)),
    fun c hc z hz hlead => ?_⟩
  · have hpending := pending_advance s
    rw [hw, List.tail_cons] at hpending
    rw [choices_advance, hsplit, hw]
    exact congrArg (earlier ++ w :: ·) hpending.symm
  · rw [List.mem_singleton.1 hz] at hlead
    obtain ⟨z', hz', hlead'⟩ := h.meets_chain hlead (hseen c hc) hfresh
    have hout := hlead'.target_not_mem
    have hnames : s.advance.chain.map Frame.name = s.chainNames :=
      chainNames_advance s
    rw [hnames] at hout
    exact hout hz'

/-- The levels further out: a walk from an earlier choice to the name
just entered meets the chain inside of the level. -/
theorem takenAt_outside (h : Sound g s) {w : String} {inner outer : List Frame}
    {f : Frame} (hfresh : w ∉ s.seen)
    (hc : s.advance.chain = inner ++ f :: outer) :
    TakenAt g (s.advance.enter g w) (w :: inner.map Frame.name) f.name
      outer := by
  obtain ⟨inner', f', hc', hf, hinner, hroots⟩ := split_of_advance hc
  obtain ⟨earlier, hsplit, hseen, hno⟩ := h.taken inner' f' outer hc'
  rw [hf, hinner] at hno
  refine ⟨earlier, ?_, fun c hc => mem_seen_enter.2 (.inr (hseen c hc)),
    fun c hc z hz hlead => ?_⟩
  · have hroots' : (s.advance.enter g w).roots = s.roots := hroots
    rw [hroots', hsplit, hf]
  · have hold : z ∈ f.name :: inner.map Frame.name → False :=
      fun hz => hno c hc z hz hlead
    simp only [List.mem_cons] at hz hold
    rcases hz with hz | rfl | hz
    · exact hold (.inl hz)
    · obtain ⟨z', hz', hlead'⟩ := h.meets_chain hlead (hseen c hc) hfresh
      have hout := hlead'.target_not_mem
      unfold chainNames at hz'
      rw [hc', List.map_append, List.map_cons, hf, hinner] at hz'
      refine hno c hc z' ?_ hlead'
      simp only [List.mem_append, List.mem_cons] at hz' ⊢
      tauto
    · exact hold (.inr hz)

/-- Entering a new name keeps it. -/
theorem enter (h : Sound g s) {w : String} {rest : List String}
    (hw : pending s.roots s.chain = w :: rest) (hnew : w ∈ s.unseen) :
    Sound g (s.advance.enter g w) := by
  have hfresh : w ∉ s.seen := ((h.unseen_iff w).1 hnew).2
  refine ⟨fun v => ?_, ?_, ⟨[], rfl, by simp⟩, fun inner f outer hc => ?_,
    fun v hv x hx => ?_⟩
  · have hun := h.unseen_iff v
    rw [mem_seen_enter]
    simp only [Search.enter, unseen_advance, List.mem_filter, hun, bne_iff_ne]
    tauto
  · have hseen : (s.advance.enter g w).seen = w :: s.advance.seen := rfl
    rw [hseen, seen_advance]
    exact List.nodup_cons.2 ⟨hfresh, h.nodup⟩
  · have hchain : (s.advance.enter g w).chain =
        ⟨w, g.targets w⟩ :: s.advance.chain := rfl
    rw [hchain] at hc
    cases inner with
    | nil =>
        obtain ⟨rfl, rfl⟩ := List.cons.inj hc
        exact h.takenAt_entered hw hfresh
    | cons i inner =>
        obtain ⟨rfl, hrest⟩ := List.cons.inj hc
        exact h.takenAt_outside hfresh hrest
  · have hleft : (s.advance.enter g w).left = s.left := left_advance s
    rw [hleft] at hv
    exact mem_seen_enter.2 (.inr (h.settled v hv x hx))

/-- Leaving the innermost name keeps it. -/
theorem leave (h : Sound g s) {v : String} {outer : List Frame}
    (hc : s.chain = ⟨v, []⟩ :: outer) :
    Sound g { s with chain := outer, left := v :: s.left } := by
  have hperm : List.Perm s.seen (outer.map Frame.name ++ v :: s.left) := by
    unfold seen chainNames
    rw [hc]
    exact List.perm_middle.symm
  have hmem : ∀ x, x ∈ outer.map Frame.name ++ v :: s.left ↔ x ∈ s.seen := by
    intro x
    exact hperm.mem_iff.symm
  refine ⟨fun x => ?_, hperm.nodup_iff.1 h.nodup, ?_,
    fun inner f outer' hc' => ?_, fun x hx y hy => (hmem y).2 ?_⟩
  · rw [h.unseen_iff x, ← hmem x]
    rfl
  · obtain ⟨earlier, hsplit, hseen, -⟩ := h.taken [] ⟨v, []⟩ outer hc
    refine ⟨earlier ++ [v], by simpa using hsplit, fun c hc' => (hmem c).2 ?_⟩
    rcases List.mem_append.1 hc' with hc' | hc'
    · exact hseen c hc'
    · rw [List.mem_singleton.1 hc']
      unfold seen chainNames
      rw [hc]
      simp
  · obtain rfl : outer = _ := hc'
    obtain ⟨earlier, hsplit, hseen, hno⟩ :=
      h.taken (⟨v, []⟩ :: inner) f outer' hc
    refine ⟨earlier, hsplit, fun c hc' => (hmem c).2 (hseen c hc'),
      fun c hc' z hz => ?_⟩
    refine hno c hc' z ?_
    rw [List.map_cons]
    simp only [List.mem_cons] at hz ⊢
    tauto
  · rcases List.mem_cons.1 hx with rfl | hx
    · obtain ⟨earlier, hsplit, hseen⟩ := h.looked
      rw [hc] at hsplit
      refine hseen y ?_
      have hy' : y ∈ g.targets x := hy
      have htargets : g.targets x = earlier := by
        simpa [choices, pending] using hsplit
      rwa [htargets] at hy'
    · exact h.settled x hx y hy

end Sound

theorem Step.sound {s s' : Search} (hstep : Step g s s') (h : Sound g s) :
    Sound g s' := by
  cases hstep with
  | enter hw hnew => exact h.enter hw hnew
  | close hw hold _ =>
      exact (h.advance hw (h.seen_of_not_unseen hw hold)).record _
  | pass hw hold _ => exact h.advance hw (h.seen_of_not_unseen hw hold)
  | leave hc => exact h.leave hc

theorem Reached.sound (h : Reached g s) : Sound g s :=
  h.invariant (sound_start g) fun _ _ _ hs hstep => hstep.sound hs

-- ============================================== what can be reached

/-- Every choice can be reached, if the names of the chain can. -/
theorem reachable_of_mem_choices {chain : List Frame} {w : String}
    (hchain : ∀ f ∈ chain, g.Reachable f.name) (hw : w ∈ g.choices chain) :
    g.Reachable w := by
  cases chain with
  | nil => exact ⟨w, hw, Relation.ReflTransGen.refl⟩
  | cons f outer =>
      have hlink : g.Links f.name w := hw
      exact (hchain f (List.mem_cons_self ..)).trans
        (Relation.ReflTransGen.single hlink)

theorem Step.reachable {s s' : Search} (hstep : Step g s s') (hs : Sound g s)
    (h : ∀ v ∈ s.seen, g.Reachable v) : ∀ v ∈ s'.seen, g.Reachable v := by
  cases hstep with
  | @enter w rest hw _ =>
      intro v hv
      rcases Sound.mem_seen_enter.1 hv with rfl | hv
      · refine reachable_of_mem_choices (fun f hf => h f.name ?_)
          (hs.pending_mem_choices hw)
        exact List.mem_append_left _ (List.mem_map_of_mem hf)
      · exact h v hv
  | close _ _ _ =>
      intro v hv
      have hv' : v ∈ s.advance.seen := hv
      rw [seen_advance] at hv'
      exact h v hv'
  | pass _ _ _ =>
      intro v hv
      rw [seen_advance] at hv
      exact h v hv
  | @leave u outer hc =>
      intro v hv
      refine h v ?_
      have hv' : v ∈ outer.map Frame.name ++ u :: s.left := hv
      unfold seen chainNames
      rw [hc]
      simp only [List.map_cons, List.cons_append, List.mem_cons,
        List.mem_append] at hv' ⊢
      tauto

/-- A search enters only what can be reached. -/
theorem Reached.reachable (h : Reached g s) : ∀ v ∈ s.seen, g.Reachable v :=
  h.invariant (fun v hv => by cases hv) fun _ _ hr hs hstep =>
    hstep.reachable hr.sound hs

-- ================================================== the chain is a way

/-- From any level on, the chain is the first way to its innermost name
past the levels outside. -/
theorem Sound.firstWay_inside (h : Sound g s) {v : String} :
    ∀ inside outer : List Frame, s.chain = inside.reverse ++ outer →
      (inside.map Frame.name).getLast? = some v →
      FirstWay g v (outer.map Frame.name) (g.choices outer)
        (inside.map Frame.name) := by
  intro inside
  induction inside with
  | nil => intro outer _ hlast; cases hlast
  | cons f inside ih =>
      intro outer hc hlast
      have hc' : s.chain = inside.reverse ++ f :: outer := by
        rw [hc]
        simp
      have hout : f.name ∉ outer.map Frame.name := by
        have hnodup := (List.nodup_append.1 h.nodup).1
        unfold chainNames at hnodup
        rw [hc', List.map_append, List.map_cons] at hnodup
        exact (List.nodup_cons.1 (List.nodup_append.1 hnodup).2.1).1
      obtain ⟨earlier, hsplit, -, hno⟩ := h.taken _ f outer hc'
      have hfirst : g.LeadsPast (outer.map Frame.name) f.name v →
          IsFirst (g.LeadsPast (outer.map Frame.name) · v)
            (g.choices outer) f.name := by
        intro hlead
        refine ⟨earlier, _, hsplit, hlead, fun c hcmem => hno c hcmem v ?_⟩
        have hv := List.mem_of_getLast? hlast
        simp only [List.map_cons, List.mem_cons, List.map_reverse,
          List.mem_reverse] at hv ⊢
        exact hv
      cases inside with
      | nil =>
          obtain rfl : f.name = v := by simpa using hlast
          exact .arrive (hfirst (.here hout))
      | cons f' inside =>
          have hlast' : ((f' :: inside).map Frame.name).getLast? = some v := by
            simpa [List.getLast?_cons] using hlast
          have hway := ih (f :: outer) hc' hlast'
          have hlead : g.LeadsPast (outer.map Frame.name) f'.name v :=
            (hway.leadsPast (List.mem_cons_self ..)).mono fun x hx =>
              List.mem_cons_of_mem _ hx
          exact .onward (hfirst (.via hout hway.head_mem_choices hlead)) hway

/-- The chain is the first way to its innermost name. -/
theorem Sound.firstWay (h : Sound g s) {v : String}
    (hv : s.chainNames.head? = some v) :
    g.IsFirstWay v s.chainNames.reverse := by
  have hlast : (s.chain.reverse.map Frame.name).getLast? = some v := by
    rw [List.map_reverse, List.getLast?_reverse]
    exact hv
  have hway := h.firstWay_inside s.chain.reverse [] (by simp) hlast
  rw [List.map_reverse] at hway
  exact hway

end ModuleAtlas.Search
