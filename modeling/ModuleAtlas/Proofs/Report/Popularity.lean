/-
The ranking of the most imported files.

# What it lists

The dependencies of all files, one after the other, are what is counted. A
file among them has one entry, with its importers in the order of the files,
once for each time that they depend on it, and with the number of these
times. Entries stand by falling count, and those of equal count as their
files are first depended on (`IsRanking`). There is no choice left in this: one list meets it
(`IsRanking.unique`).

# How it comes about

The records come in the order of first mention, and each use adds to one of
them. A stable sort by count then leaves that order to decide the ties
(`isRanking_popularity`). The report shows as much of the front as it was
asked for.
-/
import ModuleAtlas.Proofs.Report.Rankings

namespace ModuleAtlas.Project

variable {p : Project} {ranking ranking' : List Popularity}

/-- The dependencies of all files, one after the other. -/
def dependencies (p : Project) : List String :=
  p.modules.flatMap Module.dependencies

/-- This is the ranking of all files that something depends on: each has
one entry with its importers and their number, those with more of them
come first, and of those with as many the one that is depended on first. -/
structure IsRanking (p : Project) (ranking : List Popularity) : Prop where
  distinct : (ranking.map Popularity.path).Nodup
  listed : ∀ q, q ∈ ranking.map Popularity.path ↔ ∃ m ∈ p.modules, q ∈ m.dependencies
  importers : ∀ e ∈ ranking, e.importedBy =
    p.modules.flatMap fun m => List.replicate (m.dependencies.count e.path) m.path
  counts : ∀ e ∈ ranking, e.count = p.dependencies.count e.path
  order : ranking.Pairwise fun e e' => e'.count < e.count ∨ e'.count = e.count ∧
    p.dependencies.idxOf e.path < p.dependencies.idxOf e'.path

/-- No more than one list is the ranking. -/
theorem IsRanking.unique (h : p.IsRanking ranking) (h' : p.IsRanking ranking') :
    ranking = ranking' := by
  have hsub : ∀ {l l' : List Popularity}, p.IsRanking l → p.IsRanking l' →
      ∀ e ∈ l, e ∈ l' := by
    intro l l' hl hl' e he
    have hpath := (hl'.listed _).2 ((hl.listed _).1 (List.mem_map_of_mem he))
    obtain ⟨e', he', hsame⟩ := List.mem_map.1 hpath
    have himporters := hl'.importers e' he'
    have hcounts := hl'.counts e' he'
    rw [hsame, ← hl.importers e he] at himporters
    rw [hsame, ← hl.counts e he] at hcounts
    obtain ⟨path, n, l⟩ := e
    obtain ⟨path', n', l'⟩ := e'
    obtain rfl : path' = path := hsame
    obtain rfl : n' = n := hcounts
    obtain rfl : l' = l := himporters
    exact he'
  have hperm : ranking.Perm ranking' :=
    (List.perm_ext_iff_of_nodup (.of_map _ h.distinct) (.of_map _ h'.distinct)).2
      fun e => ⟨hsub h h' e, hsub h' h e⟩
  refine List.Perm.eq_of_pairwise (fun e e' _ _ hlt hlt' => ?_) h.order h'.order hperm
  omega

/-- Each use of a file comes from a dependency of the file that uses it. -/
theorem users_eq_flatMap (p : Project) (q : String) :
    p.users q = p.modules.flatMap fun m => List.replicate (m.dependencies.count q) m.path := by
  unfold users uses
  rw [List.filter_flatMap, List.map_flatMap]
  refine List.flatMap_congr fun m _ => ?_
  rw [List.filter_map, List.map_map, List.count_eq_length_filter]
  exact List.map_const' ..

theorem map_fst_uses (p : Project) : p.uses.map Prod.fst = p.dependencies := by
  unfold uses dependencies
  rw [List.map_flatMap]
  refine List.flatMap_congr fun m _ => ?_
  rw [List.map_map]
  exact List.map_id _

/-- Files come to the ranking in the order of first mention. -/
theorem keys_tally (p : Project) : p.tally.keys = p.dependencies.eraseDups := by
  rw [tally_eq_fill, OrderedMap.keys_fill_empty, map_fst_uses]

theorem isRanking_popularity (p : Project) : p.IsRanking p.popularity := by
  have hrecord : ∀ e ∈ p.popularity, e = p.record e.path :=
    fun e he => (mem_popularity_iff.1 he).2
  refine ⟨nodup_map_path_popularity p, fun q => ?_, fun e he => ?_, fun e he => ?_, ?_⟩
  · rw [List.mem_map, exists_popularity_iff]
  · rw [hrecord e he]
    exact users_eq_flatMap p e.path
  · rw [hrecord e he, ← map_fst_uses]
    exact length_users p e.path
  · have hmentioned := pairwise_eraseDups_idxOf p.dependencies
    rw [← keys_tally, ← map_path_tally, List.pairwise_map] at hmentioned
    exact pairwise_rankedBy_of_pairwise Popularity.count hmentioned

/-- The report lists the front of the ranking, as many files as it was asked
for. The count of a file is the length of the list of its importers. -/
theorem mostImported_exact (p : Project) :
    ∃ ranking, (∀ l, p.IsRanking l ↔ l = ranking) ∧
      (∀ e ∈ ranking, e.importedBy.length = e.count) ∧
      ∀ top : Nat, (p.report top).mostImported = ranking.take top := by
  refine ⟨p.popularity, fun l => ⟨fun h => h.unique p.isRanking_popularity, ?_⟩,
    fun e he => ?_, fun top => ?_⟩
  · intro hl
    rw [hl]
    exact p.isRanking_popularity
  · rw [(mem_popularity_iff.1 he).2]
    rfl
  · show firstOf top p.popularity = _
    unfold firstOf
    rw [if_pos (Int.natCast_nonneg top), Int.toNat_natCast]

end ModuleAtlas.Project
