/-
The faults of a text are the outermost marks of its tree.

# What counts

A mark counts if no node above it is marked (`IsOutermost`). A tree holds
a marked node exactly if it holds one of these (`hasMark_iff`).

# What is found

The walk goes down only where there are marks and stops at each one that
it meets. It leaves out none that counts, and meets no other
(`isOutermost_iff_mem_route`). What it met is put in the order of places;
marks at one place stay in the order of the tree, since the sort keeps
apart what compares equal (`pairwise_mergeSort_of_pairwise`).

# What becomes of the file

A file with faults is recorded with these and with nothing else
(`ofTree_of_hasMark`).
-/
import Mathlib
import ModuleAtlas.Proofs.Reading
import ModuleAtlas.Proofs.Sort
import ModuleAtlas.Proofs.Syntax.Address

namespace ModuleAtlas.Syntax

namespace Node

-- =============================================================== marks

theorem anyHasMark_iff {cs : List Node} :
    anyHasMark cs = true ↔ ∃ c ∈ cs, c.hasMark = true := by
  induction cs with
  | nil => simp [anyHasMark]
  | cons c cs ih => rw [anyHasMark, Bool.or_eq_true, ih, List.exists_mem_cons_iff]

theorem hasMark_node_iff {l : Label} {cs : List Node} :
    (node l cs).hasMark = true ↔
      l.mark ≠ .sound ∨ ∃ c ∈ cs, c.hasMark = true := by
  rw [hasMark, Bool.or_eq_true, anyHasMark_iff, bne_iff_ne]

/-- A node that has a mark bears it or holds a node that does. -/
theorem hasMark_iff {n : Node} :
    n.hasMark = true ↔ ∃ a m, n.sub? a = some m ∧ m.label.mark ≠ .sound := by
  induction n using induction with
  | h l cs ih =>
      rw [hasMark_node_iff]
      constructor
      · intro h
        rcases h with hl | ⟨c, hc, hmark⟩
        · exact ⟨[], node l cs, rfl, hl⟩
        · obtain ⟨a, m, hm, hmark⟩ := (ih c hc).1 hmark
          obtain ⟨i, hi⟩ := List.getElem?_of_mem hc
          exact ⟨i :: a, m, sub?_cons_eq_some_iff.2 ⟨c, hi, hm⟩, hmark⟩
      · intro h
        obtain ⟨a, m, hm, hmark⟩ := h
        cases a with
        | nil =>
            obtain rfl := Option.some.inj hm
            exact .inl hmark
        | cons i a =>
            obtain ⟨c, hi, hm⟩ := sub?_cons_eq_some_iff.1 hm
            have hc : c ∈ cs := List.mem_of_getElem? hi
            exact .inr ⟨c, hc, (ih c hc).2 ⟨a, m, hm, hmark⟩⟩

-- ===================================================== outermost marks

/-- The node `m` at this address is marked, and no node on the way down
to it is. -/
structure IsOutermost (n : Node) (a : Address) (m : Node) : Prop where
  at_address : n.sub? a = some m
  marked : m.label.mark ≠ .sound
  sound_above : ∀ b u, b <+: a → b ≠ a → n.sub? b = some u →
    u.label.mark = .sound

variable {n m : Node} {a : Address} {i : Nat}

theorem isOutermost_nil_iff :
    n.IsOutermost [] m ↔ n = m ∧ m.label.mark ≠ .sound := by
  constructor
  · intro h
    exact ⟨Option.some.inj h.at_address, h.marked⟩
  · intro h
    obtain ⟨rfl, hmark⟩ := h
    exact ⟨rfl, hmark, fun b u hb hne _ => absurd (List.prefix_nil.1 hb) hne⟩

/-- The outermost marks below a sound node are those of its children. -/
theorem isOutermost_cons_iff :
    n.IsOutermost (i :: a) m ↔
      n.label.mark = .sound ∧ ∃ c, n.children[i]? = some c ∧ c.IsOutermost a m := by
  constructor
  · intro h
    obtain ⟨hat, hmark, habove⟩ := h
    obtain ⟨c, hc, hat⟩ := sub?_cons_eq_some_iff.1 hat
    refine ⟨habove [] n List.nil_prefix (by simp) rfl, c, hc, hat, hmark, ?_⟩
    intro b u hb hne hu
    exact habove (i :: b) u (List.cons_prefix_cons.2 ⟨rfl, hb⟩) (by simpa using hne)
      (sub?_cons_eq_some_iff.2 ⟨c, hc, hu⟩)
  · intro h
    obtain ⟨hsound, c, hc, hat, hmark, habove⟩ := h
    refine ⟨sub?_cons_eq_some_iff.2 ⟨c, hc, hat⟩, hmark, ?_⟩
    intro b u hb hne hu
    cases b with
    | nil =>
        obtain rfl := Option.some.inj hu
        exact hsound
    | cons j b =>
        obtain ⟨rfl, hbelow⟩ := List.cons_prefix_cons.1 hb
        obtain ⟨d, hd, hu⟩ := sub?_cons_eq_some_iff.1 hu
        obtain rfl := Option.some.inj (hc.symm.trans hd)
        exact habove b u hbelow (by simpa using hne) hu

/-- Above each mark there is an outermost one. -/
theorem exists_isOutermost (h : n.hasMark = true) :
    ∃ a m, n.IsOutermost a m := by
  induction n using induction with
  | h l cs ih =>
      by_cases hl : l.mark = .sound
      · obtain ⟨c, hc, hmark⟩ := (hasMark_node_iff.1 h).resolve_left (not_not_intro hl)
        obtain ⟨a, m, hm⟩ := ih c hc hmark
        obtain ⟨i, hi⟩ := List.getElem?_of_mem hc
        exact ⟨i :: a, m, isOutermost_cons_iff.2 ⟨hl, c, hi, hm⟩⟩
      · exact ⟨[], node l cs, isOutermost_nil_iff.2 ⟨rfl, hl⟩⟩

/-- The walk comes by the outermost marks and no others. -/
theorem isOutermost_iff_mem_route :
    n.IsOutermost a m ↔
      a ∈ n.route leadsToMark ∧ n.sub? a = some m ∧ m.label.mark ≠ .sound := by
  induction a generalizing n with
  | nil =>
      rw [isOutermost_nil_iff, sub?_nil, Option.some_inj]
      exact ⟨fun h => ⟨nil_mem_route, h⟩, And.right⟩
  | cons i a ih =>
      simp only [isOutermost_cons_iff, cons_mem_route_iff, sub?_cons_eq_some_iff, ih,
        leadsToMark, Bool.and_eq_true, beq_iff_eq]
      constructor
      · intro h
        obtain ⟨hsound, c, hc, hroute, hm, hmark⟩ := h
        have hbelow : c.hasMark = true := hasMark_iff.2 ⟨a, m, hm, hmark⟩
        exact ⟨⟨c, hc, ⟨hsound, hbelow⟩, hroute⟩, ⟨c, hc, hm⟩, hmark⟩
      · intro h
        obtain ⟨⟨c, hc, ⟨hsound, -⟩, hroute⟩, ⟨d, hd, hm⟩, hmark⟩ := h
        obtain rfl := Option.some.inj (hc.symm.trans hd)
        exact ⟨hsound, c, hc, hroute, hm, hmark⟩

-- ======================================================== what is found

/-- The node at an address that the walk comes by, if it is marked. -/
def hit? (n : Node) (a : Address) : Option (Address × Node) :=
  (n.sub? a).bind fun m => if m.label.mark = .sound then none else some (a, m)

/-- The marked nodes that the walk meets, with their addresses. -/
def hits (n : Node) : List (Address × Node) :=
  (n.route leadsToMark).filterMap n.hit?

theorem hit?_eq_some_iff {h : Address × Node} :
    n.hit? a = some h ↔
      h.1 = a ∧ n.sub? a = some h.2 ∧ h.2.label.mark ≠ .sound := by
  obtain ⟨b, m⟩ := h
  rw [hit?, Option.bind_eq_some_iff]
  constructor
  · intro h
    obtain ⟨u, hu, h⟩ := h
    split at h
    · cases h
    · next hmark =>
      cases h
      exact ⟨rfl, hu, hmark⟩
  · intro h
    obtain ⟨rfl, hm, hmark⟩ := h
    exact ⟨m, hm, if_neg hmark⟩

theorem mem_hits_iff : (a, m) ∈ n.hits ↔ n.IsOutermost a m := by
  rw [isOutermost_iff_mem_route, hits, List.mem_filterMap]
  simp only [hit?_eq_some_iff]
  constructor
  · intro h
    obtain ⟨b, hb, rfl, hm, hmark⟩ := h
    exact ⟨hb, hm, hmark⟩
  · intro h
    obtain ⟨ha, hm, hmark⟩ := h
    exact ⟨a, ha, rfl, hm, hmark⟩

theorem pairwise_hits (n : Node) : n.hits.Pairwise fun x y => x.1 < y.1 := by
  refine (pairwise_route leadsToMark n).filterMap _ ?_
  intro a b hlt x hx y hy
  rw [(hit?_eq_some_iff.1 hx).1, (hit?_eq_some_iff.1 hy).1]
  exact hlt

theorem foldl_recordMark (source : Bytes) (visits : List Visit)
    (found : List Fault) :
    visits.foldl (recordMark source) found =
      found ++ visits.filterMap fun v =>
        if v.node.label.mark = .sound then none else some (v.node.fault source) := by
  induction visits generalizing found with
  | nil => rw [List.foldl_nil, List.filterMap_nil, List.append_nil]
  | cons v visits ih =>
      rw [List.foldl_cons, ih, recordMark, List.filterMap_cons]
      split
      · rfl
      · rw [List.append_assoc, List.singleton_append]

theorem walk_recordMark (source : Bytes) (root : Node) :
    walk (recordMark source) leadsToMark [.ofRoot root] [] =
      root.hits.map fun h => h.2.fault source := by
  rw [walk_root, tour_eq_filterMap_route, foldl_recordMark, List.nil_append,
    List.filterMap_filterMap, hits, List.map_filterMap]
  congr 1
  funext a
  have hsub : ((Visit.ofRoot root).at? a).map Visit.node = root.sub? a :=
    Visit.map_node_at? _ a
  rw [hit?, ← hsub, Visit.ofRoot]
  cases Visit.at? ⟨none, root⟩ a with
  | none => rfl
  | some v =>
      show (if _ then _ else _) = Option.map _ (if _ then _ else _)
      split
      · rfl
      · rfl

end Node

-- ============================================================ all faults

theorem notBehind_iff {a b : Location} :
    notBehind a b = true ↔
      a.line < b.line ∨ a.line = b.line ∧ a.column ≤ b.column := by
  rw [notBehind, Bool.or_eq_true, Bool.and_eq_true, decide_eq_true_iff,
    beq_iff_eq, decide_eq_true_iff]

theorem notBehind_trans (a b c : Location) (hab : notBehind a b = true)
    (hbc : notBehind b c = true) : notBehind a c = true := by
  rw [notBehind_iff] at *
  omega

theorem notBehind_total (a b : Location) :
    (notBehind a b || notBehind b a) = true := by
  rw [Bool.or_eq_true, notBehind_iff, notBehind_iff]
  omega

/-- The first node is at an earlier place, or at the same one and earlier
in the tree. -/
def Sooner (x y : Address × Node) : Prop :=
  x.2.location.line < y.2.location.line ∨
    x.2.location.line = y.2.location.line ∧
      (x.2.location.column < y.2.location.column ∨
        x.2.location.column = y.2.location.column ∧ x.1 < y.1)

/-- The walk's marks by place. -/
def Node.sortedHits (n : Node) : List (Address × Node) :=
  n.hits.mergeSort fun x y => notBehind x.2.location y.2.location

theorem Node.mem_sortedHits_iff {n m : Node} {a : Address} :
    (a, m) ∈ n.sortedHits ↔ n.IsOutermost a m := by
  rw [sortedHits, List.mem_mergeSort, mem_hits_iff]

theorem Node.sortedHits_eq_nil {n : Node} (h : ¬ n.hasMark = true) :
    n.sortedHits = [] := by
  rw [List.eq_nil_iff_forall_not_mem]
  intro hit hm
  obtain ⟨a, m⟩ := hit
  have hm := mem_sortedHits_iff.1 hm
  exact h (hasMark_iff.2 ⟨a, m, hm.at_address, hm.marked⟩)

theorem Node.pairwise_sortedHits (n : Node) : n.sortedHits.Pairwise Sooner := by
  let le := fun x y : Address × Node => notBehind x.2.location y.2.location
  have trans : ∀ a b c, le a b = true → le b c = true → le a c = true :=
    fun a b c => notBehind_trans _ _ _
  have total : ∀ a b, (le a b || le b a) = true := fun a b => notBehind_total _ _
  refine (pairwise_mergeSort_of_pairwise trans total (pairwise_hits n)).imp fun {x y} h => ?_
  obtain ⟨hle, htie⟩ := h
  rw [notBehind_iff] at hle
  by_cases hyx : le y x = true
  · have hyx' := notBehind_iff.1 hyx
    exact .inr ⟨by omega, .inr ⟨by omega, htie hyx⟩⟩
  · have hyx' := mt notBehind_iff.2 hyx
    have hlt : x.2.location.line < y.2.location.line ∨
        x.2.location.line = y.2.location.line ∧
          x.2.location.column < y.2.location.column := by omega
    exact hlt.imp_right fun h => ⟨h.1, .inl h.2⟩

theorem faults_eq_map_sortedHits (source : Bytes) (root : Node) :
    faults source root = root.sortedHits.map fun h => h.2.fault source := by
  unfold faults
  split
  · rw [Node.walk_recordMark, Node.sortedHits]
    exact (List.map_mergeSort (f := fun h : Address × Node => h.2.fault source)
      fun _ _ _ _ => rfl).symm
  · next hmark => rw [Node.sortedHits_eq_nil hmark, List.map_nil]

theorem faults_eq_nil_iff {source : Bytes} {root : Node} :
    faults source root = [] ↔ root.hasMark = false := by
  rw [faults_eq_map_sortedHits, List.map_eq_nil_iff, ← Bool.not_eq_true]
  constructor
  · intro hnone hmark
    obtain ⟨a, m, hm⟩ := Node.exists_isOutermost hmark
    have hmem := Node.mem_sortedHits_iff.2 hm
    rw [hnone] at hmem
    cases hmem
  · exact Node.sortedHits_eq_nil

/-- A marked tree is read for its faults only, and asks nothing of the
file system. -/
theorem ofTree_of_hasMark {isFile : FileTest} {extensions : List String}
    {here path : String} {source : Bytes} {root : Node}
    (h : root.hasMark = true) :
    Reading.ofTree isFile extensions here path source root =
      .ok ⟨⟨path, [], [], [], faults source root⟩,
        (faults source root).length⟩ := by
  have hfindings : Reading.findings source root = ⟨[], [], faults source root⟩ :=
    if_pos h
  rw [Reading.ofTree_eq_ok_iff, hfindings, if_pos h]
  exact ⟨[], rfl, rfl⟩

/-- The faults of a tree are those of its outermost marks, by place and at
one place in the order of the tree, and only a tree without marks has
none. A file with faults is recorded with these and nothing else. -/
theorem faults_outermost (source : Bytes) (root : Node) :
    (∃ hits : List (Address × Node),
      (∀ a m, (a, m) ∈ hits ↔ root.IsOutermost a m) ∧ hits.Pairwise Sooner ∧
      faults source root = hits.map fun h => h.2.fault source) ∧
    (faults source root = [] ↔
      ∀ a m, root.sub? a = some m → m.label.mark = .sound) ∧
    ∀ (grammar : Grammar) (t : FileTree) (extensions : List String)
        (path : String),
      Reading.HoldsText t (Path.absolute t.here path) source →
      grammar (Reading.dialect (Path.absolute t.here path)) source = root →
      faults source root ≠ [] →
        ∃ r, Reading.ofFile grammar t extensions path = .ok r ∧
          r.module =
            ⟨Path.absolute t.here path, [], [], [], faults source root⟩ := by
  refine ⟨⟨root.sortedHits, fun a m => Node.mem_sortedHits_iff,
    root.pairwise_sortedHits, faults_eq_map_sortedHits source root⟩, ?_, ?_⟩
  · rw [faults_eq_nil_iff, ← Bool.not_eq_true, Node.hasMark_iff]
    constructor
    · intro hnone a m hm
      by_contra hmark
      exact hnone ⟨a, m, hm, hmark⟩
    · intro hsound h
      obtain ⟨a, m, hm, hmark⟩ := h
      exact hmark (hsound a m hm)
  · intro grammar t extensions path htext hroot hfaults
    subst hroot
    have hmark := mt faults_eq_nil_iff.2 hfaults
    rw [Bool.not_eq_false] at hmark
    rw [Reading.ofFile_of_holdsText htext, ofTree_of_hasMark hmark]
    exact ⟨_, rfl, rfl⟩

/-- One bracket that is never closed: the parser takes it for text that
does not fit and misses the other one below it. -/
def unclosed : Node :=
  .node ⟨.other "program", none, true, .sound, 0, 1, ⟨0, 0⟩, none⟩
    [.node ⟨.other "ERROR", none, true, .error, 0, 1, ⟨0, 0⟩, none⟩
      [.node ⟨.other ")", none, false, .missing, 1, 1, ⟨0, 1⟩, none⟩ []]]

/-- A file that holds the bracket. -/
def holdingUnclosed : FileTree where
  top := .dir [("a.ts", .file [40])]
  here := "/"

theorem faults_outermost_unclosed :
    ∃ r, Reading.ofFile (fun _ _ => unclosed) holdingUnclosed [] "/a.ts" = .ok r ∧
      r.module =
        ⟨"/a.ts", [], [], [], [⟨"Unexpected syntax near '('", ⟨1, 1⟩⟩]⟩ := by
  have hpath : Path.absolute holdingUnclosed.here "/a.ts" = "/a.ts" := by decide
  have hfaults : faults [40] unclosed =
      [⟨"Unexpected syntax near '('", ⟨1, 1⟩⟩] := by cbv
  have hlook : holdingUnclosed.look "/a.ts" = .ok (some (.file [40])) := by
    unfold FileTree.look
    rw [FileTree.spot_eq_walk (by decide) (by decide) (by decide)]
    cbv
  have htext : Reading.HoldsText holdingUnclosed
      (Path.absolute holdingUnclosed.here "/a.ts") [40] :=
    ⟨hpath.symm ▸ FileTree.read_of_look hlook, by decide⟩
  have hread := (faults_outermost [40] unclosed).2.2 (fun _ _ => unclosed)
    holdingUnclosed [] "/a.ts" htext rfl (by rw [hfaults]; exact List.cons_ne_nil _ _)
  rwa [hpath, hfaults] at hread

end ModuleAtlas.Syntax
