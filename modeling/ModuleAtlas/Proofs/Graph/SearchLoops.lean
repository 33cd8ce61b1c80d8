/-
The loops that the search meets, and the order in which it leaves names.

# Where every edge goes

`Accounted` follows each edge from the moment it is looked at. As long
as its source is on the chain, it is pending, leads to a name inside or
to one that was left, or closes a loop that was recorded (`onChain`).
Once its source is left, only the last two remain (`onLeft`): the target
was left earlier, or the edge closed a loop. The recorded loops are the
loops of such edges and nothing else.

# At the end

Everything reachable was left (`left_of_reachable`), so every edge from
a reachable name leads to a name left earlier or closes a recorded loop
(`leftBefore_or_loop`). Not both: a name on the first way to `u` was
still on the chain when `u` was left, so it was not left earlier
(`not_leftBefore_of_mem_way`). Hence a loop is recorded for each edge
back along a first way, and for no other (`mem_loops_iff`).
-/
import ModuleAtlas.Proofs.Graph.Loop
import ModuleAtlas.Proofs.Graph.SearchInvariant

namespace ModuleAtlas.Search

open ModuleAtlas.Graph Relation

variable {g : Graph} {s : Search}

-- ======================================================= the invariant

/-- A loop that the edge from `u` to `w` closes was recorded. -/
def Closed (g : Graph) (loops : List (List String)) (u w : String) : Prop :=
  ∃ loop ∈ loops, g.BackLoop u w loop

structure Accounted (g : Graph) (s : Search) : Prop where
  loops : ∀ loop ∈ s.loops, ∃ u w, g.BackLoop u w loop
  onChain : ∀ inner f outer, s.chain = inner ++ f :: outer →
    ∀ x, g.Links f.name x →
      x ∈ f.pending ∨ x ∈ inner.map Frame.name ∨ x ∈ s.left ∨
        Closed g s.loops f.name x
  onLeft : ∀ u rest, u :: rest <:+ s.left →
    (∀ x, g.Links u x → x ∈ rest ∨ Closed g s.loops u x) ∧
      ∀ way, g.IsFirstWay u way → ∀ x ∈ way, x ∉ rest

theorem accounted_start (g : Graph) : Accounted g (start g) where
  loops loop hl := by cases hl
  onChain inner f outer hc := by simp [start] at hc
  onLeft u rest hs := by simp [start] at hs

theorem Closed.mono {loops loops' : List (List String)} {u w : String}
    (h : Closed g loops u w) (hsub : ∀ loop ∈ loops, loop ∈ loops') :
    Closed g loops' u w := by
  obtain ⟨loop, hl, hback⟩ := h
  exact ⟨loop, hsub loop hl, hback⟩

-- ============================================================ the loop

/-- A list is cut by the first place of a name in it. -/
theorem takeWhile_ne_append {w : String} {names : List String} (hw : w ∈ names) :
    ∃ outside, names = names.takeWhile (· != w) ++ w :: outside := by
  induction names with
  | nil => cases hw
  | cons x names ih =>
      by_cases hx : x = w
      · subst hx
        exact ⟨names, by simp⟩
      · have hmem : w ∈ names :=
          (List.mem_cons.1 hw).resolve_left fun h => hx h.symm
        obtain ⟨outside, hout⟩ := ih hmem
        refine ⟨outside, ?_⟩
        rw [List.takeWhile_cons_of_pos (by simpa using hx), List.cons_append,
          ← hout]

/-- An edge from the innermost name back to the chain closes the loop
that the search records for it. -/
theorem Sound.backLoop (h : Sound g s) {u w : String}
    (hu : s.chainNames.head? = some u) (hw : w ∈ s.chainNames)
    (hlink : g.Links u w) : g.BackLoop u w (loopFrom w s.advance.chain) := by
  obtain ⟨outside, hsplit⟩ := takeWhile_ne_append hw
  refine ⟨outside.reverse, ?_, rfl, hlink⟩
  have hway := h.firstWay hu
  have hnames : s.advance.chain.map Frame.name = s.chainNames :=
    chainNames_advance s
  rw [hsplit] at hway
  unfold loopFrom
  rw [hnames]
  simpa using hway

-- ======================================================= step by step

namespace Accounted

/-- After a look at the choice `w`, only the edge to `w` is left to be
accounted for. -/
theorem advanced (h : Accounted g s) {w : String} {rest : List String}
    (hw : pending s.roots s.chain = w :: rest) {inner outer : List Frame}
    {f : Frame} (hc : s.advance.chain = inner ++ f :: outer) {x : String}
    (hx : g.Links f.name x) :
    (x ∈ f.pending ∨ x ∈ inner.map Frame.name ∨ x ∈ s.left ∨
      Closed g s.loops f.name x) ∨ x = w ∧ inner = [] := by
  unfold advance at hc
  split at hc
  · next hnil => simp [hnil] at hc
  · next top below hcons =>
    rw [hcons] at hw
    have hpending : top.pending = w :: rest := hw
    cases inner with
    | nil =>
        obtain ⟨rfl, rfl⟩ := List.cons.inj hc
        rcases h.onChain [] top below hcons x hx with hp | hi | hl
        · rw [hpending] at hp
          rcases List.mem_cons.1 hp with rfl | hp
          · exact .inr ⟨rfl, rfl⟩
          · refine .inl (.inl ?_)
            rw [hpending]
            exact hp
        · cases hi
        · exact .inl (.inr (.inr hl))
    | cons i inner =>
        obtain ⟨rfl, rfl⟩ := List.cons.inj hc
        exact .inl (h.onChain (top :: inner) f outer hcons x hx)

/-- A look at a choice that is not new: it was left, or it closes a loop
that is recorded now. -/
theorem look (h : Accounted g s) {w : String} {rest : List String}
    {loops : List (List String)} (hw : pending s.roots s.chain = w :: rest)
    (hsub : ∀ loop ∈ s.loops, loop ∈ loops)
    (hloops : ∀ loop ∈ loops, ∃ u w, g.BackLoop u w loop)
    (hdone : ∀ u, s.chainNames.head? = some u → w ∈ s.left ∨ Closed g loops u w) :
    Accounted g { s.advance with loops := loops } := by
  refine ⟨hloops, fun inner f outer hc x hx => ?_, fun u rest hs => ?_⟩
  · change x ∈ f.pending ∨ x ∈ inner.map Frame.name ∨ x ∈ s.advance.left ∨
      Closed g loops f.name x
    rw [left_advance]
    rcases h.advanced hw hc hx with (hp | hi | hl | hclosed) | ⟨rfl, rfl⟩
    · exact .inl hp
    · exact .inr (.inl hi)
    · exact .inr (.inr (.inl hl))
    · exact .inr (.inr (.inr (hclosed.mono hsub)))
    · have hchain : s.advance.chain = f :: outer := hc
      have htop : s.chainNames.head? = some f.name := by
        rw [← chainNames_advance s]
        unfold chainNames
        rw [hchain]
        rfl
      exact .inr (.inr (hdone f.name htop))
  · change u :: rest <:+ s.advance.left at hs
    rw [left_advance] at hs
    obtain ⟨hedges, hway⟩ := h.onLeft u rest hs
    refine ⟨fun x hx => ?_, hway⟩
    exact (hedges x hx).imp_right fun hclosed => hclosed.mono hsub

theorem enter (h : Accounted g s) {w : String} {rest : List String}
    (hw : pending s.roots s.chain = w :: rest) :
    Accounted g (s.advance.enter g w) := by
  have hleft : (s.advance.enter g w).left = s.left := left_advance s
  have hloops : (s.advance.enter g w).loops = s.loops := loops_advance s
  refine ⟨?_, fun inner f outer hc x hx => ?_, ?_⟩
  · rw [hloops]
    exact h.loops
  · rw [hleft, hloops]
    have hchain : (s.advance.enter g w).chain =
        ⟨w, g.targets w⟩ :: s.advance.chain := rfl
    rw [hchain] at hc
    cases inner with
    | nil =>
        obtain ⟨rfl, rfl⟩ := List.cons.inj hc
        exact .inl hx
    | cons i inner =>
        obtain ⟨rfl, hrest⟩ := List.cons.inj hc
        rw [List.map_cons, List.mem_cons]
        rcases h.advanced hw hrest hx with (hp | hi | hl) | ⟨rfl, rfl⟩
        · exact .inl hp
        · exact .inr (.inl (.inr hi))
        · exact .inr (.inr hl)
        · exact .inr (.inl (.inl rfl))
  · rw [hleft, hloops]
    exact h.onLeft

theorem leave (h : Accounted g s) (hs : Sound g s) {v : String}
    {outer : List Frame} (hc : s.chain = ⟨v, []⟩ :: outer) :
    Accounted g { s with chain := outer, left := v :: s.left } := by
  refine ⟨h.loops, fun inner f outer' hc' x hx => ?_, fun u rest hsuf => ?_⟩
  · obtain rfl : outer = _ := hc'
    change x ∈ f.pending ∨ x ∈ inner.map Frame.name ∨ x ∈ v :: s.left ∨
      Closed g s.loops f.name x
    rcases h.onChain (⟨v, []⟩ :: inner) f outer' hc x hx with
      hp | hi | hl | hclosed
    · exact .inl hp
    · rcases List.mem_cons.1 hi with rfl | hi
      · exact .inr (.inr (.inl (List.mem_cons_self ..)))
      · exact .inr (.inl hi)
    · exact .inr (.inr (.inl (List.mem_cons_of_mem _ hl)))
    · exact .inr (.inr (.inr hclosed))
  · rcases List.suffix_cons_iff.1 hsuf with heq | hsuf
    · obtain ⟨rfl, rfl⟩ := List.cons.inj heq
      constructor
      · intro x hx
        rcases h.onChain [] ⟨u, []⟩ outer hc x hx with hp | hi | hl
        · cases hp
        · cases hi
        · exact hl
      · -- the way to the name is the chain, and the chain was not left
        intro way hway x hx
        have htop : s.chainNames.head? = some u := by
          unfold chainNames
          rw [hc]
          rfl
        rw [FirstWay.unique hway (hs.firstWay htop), List.mem_reverse] at hx
        exact hs.not_mem_left hx
    · exact h.onLeft u rest hsuf

end Accounted

theorem Step.accounted {s s' : Search} (hstep : Step g s s') (hs : Sound g s)
    (h : Accounted g s) : Accounted g s' := by
  cases hstep with
  | enter hw _ => exact h.enter hw
  | @close w rest hw _ hin =>
      have hback : ∀ u, s.chainNames.head? = some u →
          g.BackLoop u w (loopFrom w s.advance.chain) := by
        intro u hu
        refine hs.backLoop hu hin ?_
        have hmem := hs.pending_mem_choices hw
        unfold chainNames at hu
        cases hc : s.chain with
        | nil => rw [hc] at hu; cases hu
        | cons f outer =>
            rw [hc] at hu hmem
            obtain rfl : f.name = u := Option.some.inj hu
            exact hmem
      refine h.look hw (fun loop hl => List.mem_cons_of_mem _ hl)
        (fun loop hl => ?_) fun u hu => .inr ⟨_, List.mem_cons_self .., hback u hu⟩
      rcases List.mem_cons.1 hl with rfl | hl
      · obtain ⟨u, hu⟩ : ∃ u, s.chainNames.head? = some u := by
          cases hn : s.chainNames with
          | nil => rw [hn] at hin; cases hin
          | cons u names => exact ⟨u, rfl⟩
        exact ⟨u, w, hback u hu⟩
      · exact h.loops loop hl
  | pass hw hold hout =>
      have hseen := List.mem_append.1 (hs.seen_of_not_unseen hw hold)
      have hleft := hseen.resolve_left hout
      have hlook := h.look hw (fun loop hl => hl) h.loops fun u _ => .inl hleft
      rwa [← loops_advance s] at hlook
  | leave hc => exact h.leave hs hc

theorem Reached.accounted (h : Reached g s) : Accounted g s :=
  h.invariant (accounted_start g) fun _ _ hr ha hstep =>
    hstep.accounted hr.sound ha

end ModuleAtlas.Search

-- ========================================================== at the end

namespace ModuleAtlas.Graph

open Search

variable {g : Graph}

/-- The search left `w` before it left `u`. -/
def LeftBefore (g : Graph) (w u : String) : Prop :=
  ∃ rest, u :: rest <:+ g.search.left ∧ w ∈ rest

theorem seen_search (g : Graph) : g.search.seen = g.search.left := by
  unfold seen chainNames
  rw [chain_search]
  rfl

theorem nodup_left (g : Graph) : g.search.left.Nodup := by
  have h := (reached_search g).sound.nodup
  rwa [seen_search] at h

/-- Everything that can be reached was left. -/
theorem left_of_reachable {v : String} (h : g.Reachable v) :
    v ∈ g.search.left := by
  have hsound := (reached_search g).sound
  have hsettled := hsound.settled
  obtain ⟨earlier, hkeys, hseen⟩ := hsound.looked
  simp only [seen_search] at hsettled hseen
  rw [chain_search, roots_search] at hkeys
  obtain ⟨r, hr, hreach⟩ := h
  induction hreach with
  | refl =>
      have hkeys' : g.nodes.keys = earlier := by
        simpa [choices, pending] using hkeys
      exact hseen r (hkeys' ▸ hr)
  | tail _ hlink ih => exact hsettled _ ih _ hlink

/-- Every edge from a reachable name leads to a name that was left
earlier or closes a loop of the search. -/
theorem leftBefore_or_loop {u w : String} (hu : g.Reachable u)
    (hlink : g.Links u w) :
    g.LeftBefore w u ∨ ∃ loop ∈ g.loops, g.BackLoop u w loop := by
  obtain ⟨front, rest, hsplit⟩ := List.append_of_mem (left_of_reachable hu)
  have hsuf : u :: rest <:+ g.search.left := ⟨front, hsplit.symm⟩
  rcases ((reached_search g).accounted.onLeft u rest hsuf).1 w hlink with
    hw | ⟨loop, hl, hback⟩
  · exact .inl ⟨rest, hsuf, hw⟩
  · exact .inr ⟨loop, List.mem_reverse.2 hl, hback⟩

/-- What lies on the first way to a name is not left before it. -/
theorem not_leftBefore_of_mem_way {u w : String} {way : List String}
    (hway : g.IsFirstWay u way) (hw : w ∈ way) : ¬ g.LeftBefore w u := by
  intro h
  obtain ⟨rest, hsuf, hrest⟩ := h
  exact ((reached_search g).accounted.onLeft u rest hsuf).2 way hway w hw hrest

/-- The loops of the search are those that an edge closes back along the
first way to its source. -/
theorem mem_loops_iff {loop : List String} :
    loop ∈ g.loops ↔ ∃ u w, g.BackLoop u w loop := by
  constructor
  · intro hl
    exact (reached_search g).accounted.loops loop (List.mem_reverse.1 hl)
  · intro h
    obtain ⟨u, w, hback⟩ := h
    obtain ⟨front, hway, hhead, hlink⟩ := id hback
    have hw : w ∈ front ++ loop :=
      List.mem_append_right _ (List.mem_of_head? hhead)
    have hu := hback.reachable (List.mem_of_getLast? hback.getLast?)
    rcases leftBefore_or_loop hu hlink with hbefore | ⟨loop', hl, hback'⟩
    · exact absurd hbefore (not_leftBefore_of_mem_way hway hw)
    · rwa [hback.unique hback']

end ModuleAtlas.Graph
