/-
Who is imported most, as the report, the statistics and the graph tell
it.

# Rankings

A ranking has the items that were ranked, in a different order
(`rankedBy_perm`): by falling count (`pairwise_rankedBy`). So two rankings
of the same items differ at most among items of equal count. Leaving out
what has no count leaves out nothing of the sum.

# One list of uses

Where a project depends on nothing but itself, every dependency means
itself (`links_eq_uses`). So the edges of its graph are its uses turned
around, and a file has the dependents in the graph that the report counts
(`dependents_eq_users`): each once, since no file has two entries and
none depends on anything twice. All three counts then come to the number
of uses.

The order among equals is not the same. The report has them as they are
first used, the statistics as their files are listed (`threesome`).
-/
import Mathlib
import ModuleAtlas.Proofs.Report
import ModuleAtlas.Proofs.Sort

namespace ModuleAtlas

-- ============================================================= rankings

section

variable {α : Type} {top : Int} {pairs : List (String × Nat)}

theorem rankedBy_perm (count : α → Nat) (items : List α) :
    (rankedBy count items).Perm items :=
  List.mergeSort_perm _ _

/-- A ranking falls, and where it does not, the items stand in an order in
which they stood before. -/
theorem pairwise_rankedBy_of_pairwise {r : α → α → Prop} (count : α → Nat) {items : List α}
    (h : items.Pairwise r) :
    (rankedBy count items).Pairwise fun x y =>
      count y < count x ∨ count y = count x ∧ r x y := by
  have htrans : ∀ x y z : α, decide (count y ≤ count x) = true →
      decide (count z ≤ count y) = true → decide (count z ≤ count x) = true := by
    intro x y z hxy hyz
    simp only [decide_eq_true_eq] at hxy hyz ⊢
    exact hyz.trans hxy
  have htotal : ∀ x y : α,
      (decide (count y ≤ count x) || decide (count x ≤ count y)) = true := by
    intro x y
    simpa using Nat.le_total (count y) (count x)
  refine (pairwise_mergeSort_of_pairwise htrans htotal h).imp fun {x y} hxy => ?_
  obtain ⟨hle, htie⟩ := hxy
  rw [decide_eq_true_eq] at hle htie
  rcases Nat.lt_or_eq_of_le hle with hlt | heq
  · exact .inl hlt
  · exact .inr ⟨heq, htie heq.ge⟩

/-- A ranking falls. -/
theorem pairwise_rankedBy (count : α → Nat) (items : List α) :
    (rankedBy count items).Pairwise fun x y => count y ≤ count x := by
  have hany : items.Pairwise fun _ _ => True := List.pairwise_of_forall fun _ _ => trivial
  refine (pairwise_rankedBy_of_pairwise count hany).imp fun h => ?_
  omega

/-- Nothing that counts is left out if there is room for it. -/
theorem topPairs_eq (h : ((pairs.filter (0 < ·.2)).length : Int) ≤ top) :
    topPairs top pairs = (rankedBy Prod.snd pairs).filter (0 < ·.2) := by
  refine Project.firstOf_of_length_le ?_
  rw [((rankedBy_perm Prod.snd pairs).filter _).length_eq]
  exact h

theorem topPairs_perm (h : ((pairs.filter (0 < ·.2)).length : Int) ≤ top) :
    (topPairs top pairs).Perm (pairs.filter (0 < ·.2)) := by
  rw [topPairs_eq h]
  exact (rankedBy_perm Prod.snd pairs).filter _

theorem pairwise_topPairs (h : ((pairs.filter (0 < ·.2)).length : Int) ≤ top) :
    (topPairs top pairs).Pairwise fun x y => y.2 ≤ x.2 := by
  rw [topPairs_eq h]
  exact (pairwise_rankedBy Prod.snd pairs).filter _

/-- What does not count adds nothing. -/
theorem sum_filter_pos (pairs : List (String × Nat)) :
    ((pairs.filter (0 < ·.2)).map Prod.snd).sum = (pairs.map Prod.snd).sum := by
  induction pairs with
  | nil => rfl
  | cons pair pairs ih =>
      rw [List.map_cons, List.sum_cons, ← ih]
      by_cases hpos : 0 < pair.2
      · rw [List.filter_cons_of_pos (by simpa using hpos), List.map_cons, List.sum_cons]
      · rw [List.filter_cons_of_neg (by simpa using hpos)]
        omega

end

namespace Project

variable {p : Project} {q : String}

-- ================================================================= uses

/-- A file has as many users as it has uses. -/
theorem length_users (p : Project) (q : String) :
    (p.users q).length = (p.uses.map Prod.fst).count q := by
  rw [users, List.length_map, List.count, List.countP_map, List.countP_eq_length_filter]
  rfl

theorem users_ne_nil_iff : p.users q ≠ [] ↔ ∃ m ∈ p.modules, q ∈ m.dependencies := by
  rw [← List.length_pos_iff, length_users, List.count_pos_iff, mem_map_fst_uses_iff]

/-- The ranking of the report has each file that is used, with its users and
their number. -/
theorem mk_mem_popularity_iff {n : Nat} {l : List String} :
    ⟨q, n, l⟩ ∈ p.popularity ↔ l ≠ [] ∧ l = p.users q ∧ n = l.length := by
  rw [mem_popularity_iff, ← users_ne_nil_iff]
  unfold record
  rw [Popularity.mk.injEq]
  dsimp only
  constructor
  · intro h
    obtain ⟨hne, -, rfl, rfl⟩ := h
    exact ⟨hne, rfl, rfl⟩
  · intro h
    obtain ⟨hne, rfl, rfl⟩ := h
    exact ⟨hne, rfl, rfl, rfl⟩

/-- A record stands under the path that it tells of. -/
theorem map_path_tally (p : Project) :
    p.tally.values.map Popularity.path = p.tally.keys := by
  unfold OrderedMap.values OrderedMap.keys
  rw [List.map_map]
  refine List.map_congr_left fun entry hentry => ?_
  have hfind := (OrderedMap.find?_eq_some_iff (nodup_keys_tally p)).2 hentry
  exact congrArg Popularity.path (find?_tally_eq_some_iff.1 hfind).2

theorem nodup_map_path_popularity (p : Project) :
    (p.popularity.map Popularity.path).Nodup := by
  have hperm : (p.popularity.map Popularity.path).Perm p.tally.keys := by
    rw [← map_path_tally]
    exact (rankedBy_perm Popularity.count _).map Popularity.path
  exact hperm.symm.nodup (nodup_keys_tally p)

/-- Each use counts once. -/
theorem sum_count_popularity (p : Project) :
    (p.popularity.map Popularity.count).sum = p.uses.length := by
  have hcount : p.popularity.map Popularity.count =
      (p.popularity.map Popularity.path).map fun q => (p.uses.map Prod.fst).count q := by
    rw [List.map_map]
    refine List.map_congr_left fun e he => ?_
    rw [(mem_popularity_iff.1 he).2]
    exact length_users p e.path
  have hpaths : (p.popularity.map Popularity.path).Perm (p.uses.map Prod.fst).dedup := by
    refine (List.perm_ext_iff_of_nodup (nodup_map_path_popularity p) (List.nodup_dedup _)).2
      fun q => ?_
    rw [List.mem_map, exists_popularity_iff, List.mem_dedup, mem_map_fst_uses_iff]
  rw [hcount, (hpaths.map _).sum_eq, List.sum_map_count_dedup_eq_length, List.length_map]

theorem length_uses (p : Project) :
    p.uses.length = (p.modules.map fun m => m.dependencies.length).sum := by
  unfold uses
  rw [List.length_flatMap]
  refine congrArg List.sum (List.map_congr_left fun m _ => ?_)
  rw [List.length_map]

-- ====================================================== self-containment

/-- The project depends on nothing but its own files, each of which is
listed once and has a path, and lists what it depends on once. -/
structure SelfContained (p : Project) : Prop where
  placed : ∀ m ∈ p.modules, m.path ≠ ""
  distinct : (p.modules.map Module.path).Nodup
  once : ∀ m ∈ p.modules, m.dependencies.Nodup
  inside : ∀ m ∈ p.modules, ∀ d ∈ m.dependencies, d ∈ p.modules.map Module.path

/-- Every dependency means itself. -/
theorem SelfContained.links_eq_uses (h : p.SelfContained) :
    Graph.links p.modules = p.uses.map Prod.swap := by
  unfold Graph.links Graph.linksOf uses
  rw [List.map_flatMap]
  refine List.flatMap_congr fun m hm => ?_
  have hself : m.dependencies.filterMap (Graph.meant? (p.modules.map Module.path)) =
      m.dependencies := by
    refine (List.filterMap_congr fun d hd => ?_).trans List.filterMap_some
    exact Graph.meant?_eq_some_iff.2 (.inl ⟨h.inside m hm d hd, rfl⟩)
  rw [hself, List.map_map]
  rfl

/-- No file uses another one twice. -/
theorem SelfContained.nodup_uses (h : p.SelfContained) : p.uses.Nodup := by
  refine List.nodup_flatMap.2 ⟨fun m hm => ?_, ?_⟩
  · exact (h.once m hm).map fun d d' heq => (Prod.mk.inj heq).1
  · refine (List.pairwise_map.1 h.distinct).imp fun hne use huse huse' => ?_
    obtain ⟨d, -, rfl⟩ := List.mem_map.1 huse
    obtain ⟨d', -, heq⟩ := List.mem_map.1 huse'
    exact hne (Prod.mk.inj heq).2.symm

theorem SelfContained.nodup_users (h : p.SelfContained) (q : String) :
    (p.users q).Nodup := by
  refine (h.nodup_uses.filter _).map_on fun use huse use' huse' heq => ?_
  have hq : use.1 = q := of_decide_eq_true (List.mem_filter.1 huse).2
  have hq' : use'.1 = q := of_decide_eq_true (List.mem_filter.1 huse').2
  exact Prod.ext (hq.trans hq'.symm) heq

/-- The graph has the users of a file as its dependents. -/
theorem SelfContained.dependents_eq_users (h : p.SelfContained) (q : String) :
    ((Graph.ofModules p.modules).dependents.find? q).getD [] = p.users q := by
  have hfiled : ((Graph.additions p.modules).filter (·.target = q)).map Edge.source =
      p.users q := by
    rw [Graph.additions_eq_map_links, h.links_eq_uses, List.map_map, List.filter_map,
      List.map_map]
    rfl
  rw [Graph.getD_dependents, hfiled, eraseDups_of_nodup (h.nodup_users q)]

/-- A file that is used is one of the project. -/
theorem SelfContained.mem_of_users_ne_nil (h : p.SelfContained) (hq : p.users q ≠ []) :
    q ∈ p.modules.map Module.path := by
  obtain ⟨m, hm, hd⟩ := users_ne_nil_iff.1 hq
  exact h.inside m hm q hd

/-- The ranking of the report has the lists of dependents that are not
empty. -/
theorem SelfContained.mk_mem_popularity_iff_dependents (h : p.SelfContained)
    {n : Nat} {l : List String} :
    ⟨q, n, l⟩ ∈ p.popularity ↔
      (Graph.ofModules p.modules).dependents.find? q = some l ∧ l ≠ [] ∧ n = l.length := by
  rw [mk_mem_popularity_iff, Graph.find?_dependents_ofModules, h.dependents_eq_users]
  constructor
  · intro hl
    obtain ⟨hne, rfl, hn⟩ := hl
    rw [if_pos (h.mem_of_users_ne_nil hne)]
    exact ⟨rfl, hne, hn⟩
  · intro hl
    obtain ⟨hfind, hne, hn⟩ := hl
    obtain ⟨-, hsome⟩ := Option.ite_none_right_eq_some.1 hfind
    exact ⟨hne, (Option.some.inj hsome).symm, hn⟩

/-- There is an edge for each use. -/
theorem SelfContained.edgeCount_eq (h : p.SelfContained) :
    (Graph.ofModules p.modules).edgeCount = p.uses.length := by
  unfold Graph.edgeCount
  rw [(Graph.allEdges_perm p.modules).length_eq, List.length_map, h.links_eq_uses,
    List.length_map]

-- ============================================================ agreement

/-- A file with the number of those that import it. -/
def counted (e : Popularity) : String × Nat := (e.path, e.count)

/-- A file with the number of its dependents. -/
def sized (entry : String × List String) : String × Nat := (entry.1, entry.2.length)

/-- The files with dependents and their numbers are those that the report
ranks. -/
theorem SelfContained.sized_perm_counted (h : p.SelfContained) :
    (((Graph.ofModules p.modules).dependents.entries.map sized).filter (0 < ·.2)).Perm
      (p.popularity.map counted) := by
  have hkeys : (Graph.ofModules p.modules).dependents.keys.Nodup := by
    rw [Graph.keys_dependents_ofModules]
    exact nodup_eraseDups _
  have hsized : (((Graph.ofModules p.modules).dependents.entries.map sized).filter
      (0 < ·.2)).Nodup := by
    refine List.Nodup.filter _ (List.Nodup.of_map Prod.fst ?_)
    rw [List.map_map]
    exact hkeys
  have hcounted : (p.popularity.map counted).Nodup := by
    refine List.Nodup.of_map Prod.fst ?_
    rw [List.map_map]
    exact nodup_map_path_popularity p
  refine (List.perm_ext_iff_of_nodup hsized hcounted).2 fun pair => ?_
  rw [List.mem_filter, List.mem_map, List.mem_map, decide_eq_true_eq]
  constructor
  · intro hpair
    obtain ⟨⟨⟨q, l⟩, hentry, rfl⟩, hpos⟩ := hpair
    have hfind := (OrderedMap.find?_eq_some_iff hkeys).2 hentry
    exact ⟨⟨q, l.length, l⟩, h.mk_mem_popularity_iff_dependents.2
      ⟨hfind, List.ne_nil_of_length_pos hpos, rfl⟩, rfl⟩
  · intro hpair
    obtain ⟨⟨q, n, l⟩, he, rfl⟩ := hpair
    obtain ⟨hfind, hne, rfl⟩ := h.mk_mem_popularity_iff_dependents.1 he
    exact ⟨⟨(q, l), (OrderedMap.find?_eq_some_iff hkeys).1 hfind, rfl⟩,
      List.length_pos_iff.2 hne⟩

/-- Each of three files of this project is used: `c` by the two others,
and these by one each. -/
def threesome : Project where
  rootPath := "/p"
  modules := [⟨"/p/a.ts", [], [], ["/p/b.ts", "/p/c.ts"], []⟩,
    ⟨"/p/b.ts", [], [], ["/p/c.ts"], []⟩, ⟨"/p/c.ts", [], [], ["/p/a.ts"], []⟩]
  totalImports := 0
  totalExports := 0
  graph := none
  skipped := []

/-- The report, the statistics and the graph of a project that depends on
nothing but itself agree on who imports whom, as long as nothing is left
out of the rankings: the most imported files are those with dependents,
each once, with the list of these and their number; the statistics rank the same files
by the same counts; and all counts of a kind add up to the number of
edges. -/
theorem rankings_agree {top most : Int} (h : p.SelfContained)
    (hgraph : p.itsGraph = Graph.build (p.modules.map .module))
    (htop : (p.popularity.length : Int) ≤ top)
    (hmost : (p.popularity.length : Int) ≤ most)
    (husers : ((p.modules.filter (·.dependencies ≠ [])).length : Int) ≤ most) :
    let g := p.itsGraph
    let imported := (p.report top).mostImported
    let stats := p.statistics most
    (∀ q n l, ⟨q, n, l⟩ ∈ imported ↔
      g.dependents.find? q = some l ∧ l ≠ [] ∧ n = l.length) ∧
    (imported.map Popularity.path).Nodup ∧
    (∀ e ∈ imported, e.count = ((g.dependents.find? e.path).getD []).length) ∧
    stats.mostDependents.Perm (imported.map counted) ∧
    imported.Pairwise (fun e e' => e'.count ≤ e.count) ∧
    stats.mostDependents.Pairwise (fun pair pair' => pair'.2 ≤ pair.2) ∧
    g.edgeCount = (imported.map Popularity.count).sum ∧
    g.edgeCount = (stats.mostDependencies.map Prod.snd).sum := by
  have hbuilt : p.itsGraph = Graph.ofModules p.modules :=
    hgraph.trans (Graph.build_map_module h.placed)
  have himported : (p.report top).mostImported = p.popularity := firstOf_of_length_le htop
  have hranked := h.sized_perm_counted
  have hroom : (((p.itsGraph.dependents.entries.map sized).filter (0 < ·.2)).length : Int) ≤
      most := by
    rw [hbuilt, hranked.length_eq, List.length_map]
    exact hmost
  have hdependencies : (((p.modules.map fun m => (m.path, m.dependencies.length)).filter
      (0 < ·.2)).length : Int) ≤ most := by
    rw [List.filter_map, List.length_map]
    refine le_of_eq_of_le (congrArg (fun l : List Module => (l.length : Int)) ?_) husers
    refine List.filter_congr fun m _ => ?_
    simp [List.length_pos_iff]
  refine ⟨fun q n l => ?_, ?_, fun e he => ?_, ?_, ?_, pairwise_topPairs hroom, ?_, ?_⟩
  · rw [himported, hbuilt]
    exact h.mk_mem_popularity_iff_dependents
  · rw [himported]
    exact nodup_map_path_popularity p
  · rw [himported] at he
    obtain ⟨hfind, -, hlength⟩ := h.mk_mem_popularity_iff_dependents.1 he
    rw [hbuilt, hfind]
    exact hlength
  · rw [himported]
    refine (topPairs_perm hroom).trans ?_
    rw [hbuilt]
    exact hranked
  · rw [himported]
    exact pairwise_rankedBy Popularity.count _
  · rw [himported, hbuilt, h.edgeCount_eq, sum_count_popularity]
  · rw [hbuilt, h.edgeCount_eq, length_uses]
    refine Eq.symm (((topPairs_perm hdependencies).map Prod.snd).sum_eq.trans ?_)
    rw [sum_filter_pos, List.map_map]
    rfl

theorem rankings_agree_threesome :
    threesome.SelfContained ∧ (threesome.popularity.length : Int) ≤ 3 ∧
      (threesome.itsGraph.dependents.find? "/p/c.ts" = some ["/p/a.ts", "/p/b.ts"]) ∧
      threesome.itsGraph.edgeCount = 4 ∧
      (threesome.report 3).mostImported.map counted =
        [("/p/c.ts", 2), ("/p/b.ts", 1), ("/p/a.ts", 1)] ∧
      (threesome.statistics 3).mostDependents =
        [("/p/c.ts", 2), ("/p/a.ts", 1), ("/p/b.ts", 1)] := by
  have hself : threesome.SelfContained := ⟨by decide, by decide, by decide, by decide⟩
  have hpopularity : threesome.popularity = [⟨"/p/c.ts", 2, ["/p/a.ts", "/p/b.ts"]⟩,
      ⟨"/p/b.ts", 1, ["/p/a.ts"]⟩, ⟨"/p/a.ts", 1, ["/p/c.ts"]⟩] := by cbv
  have hlength : (threesome.popularity.length : Int) ≤ 3 := by
    rw [hpopularity]
    decide
  have himported : (threesome.report 3).mostImported = threesome.popularity :=
    firstOf_of_length_le hlength
  obtain ⟨hlists, -, -, -, -, -, hedges, -⟩ :=
    rankings_agree hself rfl hlength hlength (by decide)
  refine ⟨hself, hlength, ((hlists _ 2 _).1 ?_).1, hedges.trans ?_, ?_, by cbv⟩
  · rw [himported, hpopularity]
    decide
  · rw [himported, hpopularity]
    rfl
  · rw [himported, hpopularity]
    rfl

end Project

end ModuleAtlas
