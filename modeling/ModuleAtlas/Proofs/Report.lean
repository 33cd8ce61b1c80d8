/-
What a report says about the uses of a file.

# Imported files

The dependencies of all files, one after the other, are the uses. Each adds
to the record of the file that is used: one to the count and the user to the
list, so that the one stays the length of the other (`foldl_add`). The
most imported files are the paths among the uses, and each is listed with
those that use it, as often as they do (`mem_popularity_iff`). Untruncated,
the ranking loses none (`exists_mostImported_iff`).

# Isolated files

Whether a file is isolated is up to that file alone: it imports nothing
and exports nothing. Whether it is imported is up to the others, who may
do so for its effects or in spite of its faults. So an isolated file is
among those imported exactly if a file depends on it, and has dependents
in the graph exactly if a file leads to it (`LeadsTo`). In `effects` both
are so.
-/
import Mathlib.Data.List.Perm.Basic
import ModuleAtlas.Report
import ModuleAtlas.Proofs.Graph.Shape

namespace ModuleAtlas.Project

open ModuleAtlas.Graph (StandsFor)

variable {p : Project} {top : Int} {q s : String}

-- ================================================================= uses

theorem mem_uses_iff :
    (q, s) ∈ p.uses ↔ ∃ m ∈ p.modules, m.path = s ∧ q ∈ m.dependencies := by
  unfold uses
  rw [List.mem_flatMap]
  constructor
  · intro h
    obtain ⟨m, hm, huse⟩ := h
    obtain ⟨d, hd, heq⟩ := List.mem_map.1 huse
    obtain ⟨rfl, rfl⟩ := Prod.mk.inj heq
    exact ⟨m, hm, rfl, hd⟩
  · intro h
    obtain ⟨m, hm, rfl, hq⟩ := h
    exact ⟨m, hm, List.mem_map.2 ⟨q, hq, rfl⟩⟩

/-- What is used is what some file depends on. -/
theorem mem_map_fst_uses_iff :
    q ∈ p.uses.map Prod.fst ↔ ∃ m ∈ p.modules, q ∈ m.dependencies := by
  rw [List.mem_map]
  constructor
  · intro h
    obtain ⟨⟨_, s⟩, huse, rfl⟩ := h
    obtain ⟨m, hm, -, hq⟩ := mem_uses_iff.1 huse
    exact ⟨m, hm, hq⟩
  · intro h
    obtain ⟨m, hm, hq⟩ := h
    exact ⟨(q, m.path), mem_uses_iff.2 ⟨m, hm, rfl, hq⟩, rfl⟩

/-- The files that use `q`, once for each time they do. -/
def users (p : Project) (q : String) : List String :=
  (p.uses.filter (·.1 = q)).map Prod.snd

-- ================================================================ tally

/-- Each use adds its user to the record of the file that is used. -/
theorem tally_eq_fill (p : Project) :
    p.tally = OrderedMap.fill Prod.fst
      (fun use known => (known.getD ⟨use.1, 0, []⟩).add use.2) .empty p.uses := rfl

theorem nodup_keys_tally (p : Project) : p.tally.keys.Nodup := by
  rw [tally_eq_fill]
  exact OrderedMap.nodup_keys_fill OrderedMap.nodup_keys_empty _

theorem mem_keys_tally_iff :
    q ∈ p.tally.keys ↔ ∃ m ∈ p.modules, q ∈ m.dependencies := by
  rw [tally_eq_fill, OrderedMap.keys_fill_empty, List.mem_eraseDups, mem_map_fst_uses_iff]

/-- A record to which users are added counts what its list grows by. -/
theorem foldl_add (e : Popularity) (users : List String) :
    users.foldl Popularity.add e =
      ⟨e.path, e.count + users.length, e.importedBy ++ users⟩ := by
  induction users generalizing e with
  | nil => rw [List.foldl_nil, List.append_nil]; rfl
  | cons user users ih =>
      rw [List.foldl_cons, ih, Popularity.add, List.append_assoc, List.length_cons,
        Nat.add_right_comm]
      rfl

/-- What the uses of `q` come to. -/
def record (p : Project) (q : String) : Popularity :=
  ⟨q, (p.users q).length, p.users q⟩

/-- The record of a file was made by its uses alone. -/
theorem getD_tally (p : Project) (q : String) :
    (p.tally.find? q).getD ⟨q, 0, []⟩ = p.record q := by
  have huses : ∀ v : Option Popularity, ∀ use ∈ p.uses.filter (·.1 = q),
      some ((v.getD ⟨use.1, 0, []⟩).add use.2) = some ((v.getD ⟨q, 0, []⟩).add use.2) := by
    intro v use huse
    rw [of_decide_eq_true (List.mem_filter.1 huse).2]
  rw [tally_eq_fill, OrderedMap.find?_fill, List.foldl_ext _ _ _ huses,
    OrderedMap.foldl_getD fun (e : Popularity) (use : String × String) => e.add use.2,
    ← List.foldl_map, foldl_add]
  show (⟨q, 0 + (p.users q).length, [] ++ p.users q⟩ : Popularity) = p.record q
  rw [Nat.zero_add]
  rfl

/-- The files with a record are those that are used, and it is what their
uses come to. -/
theorem find?_tally_eq_some_iff {e : Popularity} :
    p.tally.find? q = some e ↔
      (∃ m ∈ p.modules, q ∈ m.dependencies) ∧ e = p.record q := by
  rw [← mem_keys_tally_iff, OrderedMap.mem_keys_iff, ← getD_tally]
  constructor
  · intro h
    rw [h]
    exact ⟨⟨_, rfl⟩, rfl⟩
  · intro h
    obtain ⟨⟨e', he'⟩, rfl⟩ := h
    rw [he', Option.getD_some]

-- =========================================================== popularity

/-- The files that are ranked are those that are depended on, each with
those that do, in the order of the files, and with their number. -/
theorem mem_popularity_iff {e : Popularity} :
    e ∈ p.popularity ↔
      (∃ m ∈ p.modules, e.path ∈ m.dependencies) ∧ e = p.record e.path := by
  unfold popularity rankedBy
  rw [(List.mergeSort_perm _ _).mem_iff, OrderedMap.mem_values_iff (nodup_keys_tally p)]
  constructor
  · intro h
    obtain ⟨q, hfind⟩ := h
    obtain ⟨hused, rfl⟩ := find?_tally_eq_some_iff.1 hfind
    exact ⟨hused, rfl⟩
  · intro h
    exact ⟨e.path, find?_tally_eq_some_iff.2 h⟩

/-- The files that are ranked are those that something depends on. -/
theorem exists_popularity_iff :
    (∃ e ∈ p.popularity, e.path = q) ↔ ∃ m ∈ p.modules, q ∈ m.dependencies := by
  constructor
  · intro h
    obtain ⟨e, he, rfl⟩ := h
    exact (mem_popularity_iff.1 he).1
  · intro h
    exact ⟨p.record q, mem_popularity_iff.2 ⟨h, rfl⟩, rfl⟩

theorem firstOf_of_length_le {α : Type} {items : List α} (h : (items.length : Int) ≤ top) :
    firstOf top items = items := by
  unfold firstOf
  rw [if_pos (by omega), List.take_of_length_le (by omega)]

/-- The whole ranking has the files that are depended on. -/
theorem exists_mostImported_iff (htop : (p.popularity.length : Int) ≤ top) :
    (∃ e ∈ (p.report top).mostImported, e.path = q) ↔
      ∃ m ∈ p.modules, q ∈ m.dependencies := by
  have hall : (p.report top).mostImported = p.popularity := firstOf_of_length_le htop
  rw [hall]
  exact exists_popularity_iff

-- =========================================================== dependents

/-- The files that have a place in the graph. -/
def placed (p : Project) : List Module :=
  p.modules.filter fun m => m.path ≠ ""

theorem build_modules (p : Project) :
    Graph.build (p.modules.map .module) = Graph.ofModules p.placed := by
  have hkept : ∀ m, (Submission.module m).module? = Option.guard (·.path ≠ "") m := by
    intro m
    by_cases hm : m.path = "" <;>
      simp [Submission.module, Submission.module?, Draft.module?, Option.guard, hm]
  unfold Graph.build placed
  rw [List.filterMap_map, ← List.filterMap_eq_filter]
  exact congrArg Graph.ofModules (List.filterMap_congr fun m _ => hkept m)

/-- The module has a dependency for which the file `q` stands in the
graph. -/
def LeadsTo (p : Project) (m : Module) (q : String) : Prop :=
  ∃ d ∈ m.dependencies, StandsFor (p.placed.map Module.path) d q

theorem mem_dependents_iff (hgraph : p.itsGraph = Graph.build (p.modules.map .module)) :
    s ∈ (p.itsGraph.dependents.find? q).getD [] ↔
      ∃ m ∈ p.placed, m.path = s ∧ p.LeadsTo m q := by
  rw [hgraph, build_modules, Graph.mem_dependents_iff]
  constructor
  · intro h
    obtain ⟨e, he, rfl⟩ := h
    exact Graph.mem_links_iff.1 (Graph.mem_edgesFrom_ofModules.1 he).2.1
  · intro h
    exact ⟨⟨s, q, .importing⟩,
      Graph.mem_edgesFrom_ofModules.2 ⟨rfl, Graph.mem_links_iff.2 h, rfl⟩, rfl⟩

-- ============================================================= isolated

/-- A file is isolated for what it does itself. -/
theorem mem_isolated_iff :
    q ∈ (p.report top).isolated ↔
      ∃ m ∈ p.modules, m.path = q ∧ m.imports = [] ∧ m.exports = [] := by
  show q ∈ p.isolated ↔ _
  unfold isolated
  simp only [List.mem_map, List.mem_filter, Bool.and_eq_true, List.isEmpty_iff]
  constructor
  · intro h
    obtain ⟨m, ⟨hm, halone⟩, hq⟩ := h
    exact ⟨m, hm, hq, halone⟩
  · intro h
    obtain ⟨m, hm, hq, halone⟩ := h
    exact ⟨m, ⟨hm, halone⟩, hq⟩

-- ============================================================ for effects

/-- A file that another one imports for its effects, since it offers
nothing. -/
def effects : Project where
  rootPath := "/p"
  modules := [⟨"/p/a.ts", [⟨"./b", .named, []⟩], [], ["/p/b.ts"], []⟩,
    ⟨"/p/b.ts", [], [], [], []⟩]
  totalImports := 1
  totalExports := 0
  graph := none
  skipped := []

theorem length_popularity_effects : (effects.popularity.length : Int) ≤ 10 := by
  unfold popularity rankedBy
  rw [List.length_mergeSort]
  decide

-- ======================================================= the isolated ones

/-- Nobody is reported to import an isolated file exactly if nobody does:
no file depends on one that imports and exports nothing, and none leads
to it in the graph. -/
theorem isolated_unimported_iff
    (hgraph : p.itsGraph = Graph.build (p.modules.map .module))
    (htop : (p.popularity.length : Int) ≤ top) :
    (∀ q, (∃ e ∈ (p.report top).mostImported, e.path = q) ↔
        ∃ m ∈ p.modules, q ∈ m.dependencies) ∧
      (∀ q s, s ∈ (p.itsGraph.dependents.find? q).getD [] ↔
        ∃ m ∈ p.placed, m.path = s ∧ p.LeadsTo m q) ∧
      ((∀ q ∈ (p.report top).isolated,
          (∀ e ∈ (p.report top).mostImported, e.path ≠ q) ∧
            (p.itsGraph.dependents.find? q).getD [] = []) ↔
        ∀ q, (∃ m ∈ p.modules, m.path = q ∧ m.imports = [] ∧ m.exports = []) →
          (∀ m ∈ p.modules, q ∉ m.dependencies) ∧ ∀ m ∈ p.placed, ¬ p.LeadsTo m q) := by
  refine ⟨fun q => exists_mostImported_iff htop, fun q s => mem_dependents_iff hgraph, ?_⟩
  refine forall_congr' fun q => imp_congr mem_isolated_iff (and_congr ?_ ?_)
  · have hlisted := not_congr (exists_mostImported_iff (q := q) htop)
    push Not at hlisted
    exact hlisted
  · rw [List.eq_nil_iff_forall_not_mem]
    simp only [mem_dependents_iff hgraph]
    constructor
    · intro h m hm hleads
      exact h m.path ⟨m, hm, rfl, hleads⟩
    · intro h s hs
      obtain ⟨m, hm, -, hleads⟩ := hs
      exact h m hm hleads

theorem isolated_unimported_iff_effects :
    effects.itsGraph = Graph.build (effects.modules.map .module) ∧
      (effects.popularity.length : Int) ≤ 10 ∧
      "/p/b.ts" ∈ (effects.report 10).isolated ∧
      (∃ e ∈ (effects.report 10).mostImported, e.path = "/p/b.ts") ∧
      "/p/a.ts" ∈ (effects.itsGraph.dependents.find? "/p/b.ts").getD [] := by
  obtain ⟨hlisted, hdependents, -⟩ := isolated_unimported_iff (p := effects) rfl
    length_popularity_effects
  refine ⟨rfl, length_popularity_effects, by decide, (hlisted "/p/b.ts").2 (by decide), ?_⟩
  have hleads : effects.LeadsTo ⟨"/p/a.ts", [⟨"./b", .named, []⟩], [], ["/p/b.ts"], []⟩
      "/p/b.ts" :=
    ⟨"/p/b.ts", by decide, .inl ⟨by decide, rfl⟩⟩
  exact (hdependents "/p/b.ts" "/p/a.ts").2 ⟨_, by decide, rfl, hleads⟩

/-- An isolated file may be imported. -/
theorem isolated_imported :
    ¬ ∀ (p : Project) (top : Int),
      p.itsGraph = Graph.build (p.modules.map .module) →
      (p.popularity.length : Int) ≤ top →
        ∀ q ∈ (p.report top).isolated,
          (∀ e ∈ (p.report top).mostImported, e.path ≠ q) ∧
            (p.itsGraph.dependents.find? q).getD [] = [] := by
  intro h
  have hisolated : "/p/b.ts" ∈ (effects.report 10).isolated := by decide
  obtain ⟨e, he, hpath⟩ := (exists_mostImported_iff length_popularity_effects).2
    (by decide : ∃ m ∈ effects.modules, "/p/b.ts" ∈ m.dependencies)
  exact (h effects 10 rfl length_popularity_effects _ hisolated).1 e he hpath

end ModuleAtlas.Project
