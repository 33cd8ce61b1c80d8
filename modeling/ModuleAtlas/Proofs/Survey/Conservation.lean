/-
What a survey keeps.

# No file without an outcome

Whatever the files below a directory hold, each of them is accounted for
(`Accounts`). What could be read has its module, and what could not is
skipped, both in the order of the listing. A module goes by the absolute
form of its path, and the names below the directory are what tells two of
these apart, however the directory itself is spelled. So no two modules
go by the same path, and the tables of the graph, which are kept by path,
have room for all of them (`Agrees`).

# No use without an edge

A file is known by one path only: it is recorded under the path that the
resolver answers with, and the graph is kept by that. So where an import
leads to a module, there is an edge to it (`mem_links_of_uses`). An import
does lead to a module if its target is the path of one, since a target
that is a file is the answer (`uses_of_target`).
-/
import ModuleAtlas.Proofs.Graph.Shape
import ModuleAtlas.Proofs.Resolve
import ModuleAtlas.Proofs.Scan
import ModuleAtlas.Proofs.Survey.Provenance

namespace ModuleAtlas.Survey

variable {grammar : Grammar} {t : FileTree} {config : Config} {root : String}
    {survey : Survey} {paths : List String}

-- ============================================================= outcomes

/-- Whether the file at the path can be read. -/
def reads (grammar : Grammar) (t : FileTree) (config : Config) (path : String) : Bool :=
  (Reading.ofFile grammar t config.resolverExtensions path).isOk

theorem reads_of_eq_ok {path : String} {r : Reading}
    (h : Reading.ofFile grammar t config.resolverExtensions path = .ok r) :
    reads grammar t config path = true := by
  unfold reads
  rw [h]
  rfl

theorem reads_of_eq_error {path : String} {e : Failure}
    (h : Reading.ofFile grammar t config.resolverExtensions path = .error e) :
    reads grammar t config path = false := by
  unfold reads
  rw [h]
  rfl

/-- What was read from the file at the path, under its absolute form. -/
def IsModuleOf (grammar : Grammar) (t : FileTree) (config : Config) (path : String)
    (m : Module) : Prop :=
  m.path = Path.absolute t.here path ∧
    ∃ r, Reading.ofFile grammar t config.resolverExtensions path = .ok r ∧ r.module = m

/-- Each of the paths is accounted for once: it has its module or is
skipped, and no two modules are of the same path. -/
structure Accounts (grammar : Grammar) (t : FileTree) (config : Config)
    (paths : List String) (p : Project) : Prop where
  once : paths.Nodup
  modules : List.Forall₂ (IsModuleOf grammar t config)
    (paths.filter (reads grammar t config)) p.modules
  skipped : p.skipped = paths.filter fun path => !reads grammar t config path
  distinct : (p.modules.map Module.path).Nodup

/-- What was read became modules, in the order of the files. -/
theorem forall₂_modules (paths : List String) :
    List.Forall₂ (IsModuleOf grammar t config) (paths.filter (reads grammar t config))
      (modules (outcomes grammar t config paths)) := by
  induction paths with
  | nil => exact .nil
  | cons path paths ih =>
      unfold outcomes modules at ih ⊢
      rw [List.map_cons, List.filterMap_cons, List.filter_cons]
      cases hread : Reading.ofFile grammar t config.resolverExtensions path with
      | error e =>
          rw [reads_of_eq_error hread]
          exact ih
      | ok r =>
          rw [reads_of_eq_ok hread]
          exact .cons ⟨Reading.path_of_ofFile hread, r, hread, rfl⟩ ih

/-- The rest was skipped. -/
theorem skipped_outcomes (paths : List String) :
    skipped (outcomes grammar t config paths) =
      paths.filter fun path => !reads grammar t config path := by
  induction paths with
  | nil => rfl
  | cons path paths ih =>
      unfold outcomes skipped at ih ⊢
      rw [List.map_cons, List.filterMap_cons, List.filter_cons]
      cases hread : Reading.ofFile grammar t config.resolverExtensions path with
      | error e =>
          rw [reads_of_eq_error hread]
          exact congrArg (path :: ·) ih
      | ok r =>
          rw [reads_of_eq_ok hread]
          exact ih

theorem map_path_of_forall₂ {modules : List Module}
    (h : List.Forall₂ (IsModuleOf grammar t config) paths modules) :
    modules.map Module.path = paths.map (Path.absolute t.here) := by
  induction h with
  | nil => rfl
  | cons hm _ ih => rw [List.map_cons, List.map_cons, hm.1, ih]

theorem accounts_ofPaths (grammar : Grammar) (hproper : t.top.Proper)
    (h : Scan.sourceFiles t ⟨config.effectiveExtensions, config.excludeDirs⟩
      config.maxDepth root = .ok paths) :
    Accounts grammar t config paths (ofPaths grammar t config root paths).project := by
  have hdistinct := Scan.nodup_absolute_of_sourceFiles hproper h
  have hmodules : List.Forall₂ (IsModuleOf grammar t config) _ _ := forall₂_modules paths
  refine ⟨hdistinct.of_map, hmodules, skipped_outcomes paths, ?_⟩
  show ((modules (outcomes grammar t config paths)).map Module.path).Nodup
  rw [map_path_of_forall₂ hmodules]
  exact hdistinct.sublist (List.filter_sublist.map _)

-- =============================================================== graphs

/-- The graph has a node for each module of the project, the totals are
the counts of the nodes added up, and edges and cycles join modules. -/
structure Agrees (p : Project) (g : Graph) : Prop where
  nodes : g.nodes.keys = p.modules.map Module.path
  imports : p.totalImports = (g.nodes.values.map Node.imports).sum
  exports : p.totalExports = (g.nodes.values.map Node.exports).sum
  edges : ∀ e ∈ g.allEdges,
    e.source ∈ p.modules.map Module.path ∧ e.target ∈ p.modules.map Module.path
  cycles : ∀ c ∈ g.cycles, ∀ v ∈ c.nodes, v ∈ p.modules.map Module.path
  chains : ∀ c ∈ g.cycles, ∀ e ∈ c.edges,
    e.source ∈ p.modules.map Module.path ∧ e.target ∈ p.modules.map Module.path

theorem total_eq_sum (counts : List Nat) : total counts = counts.sum :=
  List.sum_eq_foldl.symm

/-- The project of some outcomes agrees with the graph of its modules if
no two of them are of the same path. -/
theorem agrees_ofModules {outcomes : List Outcome}
    (h : ((modules outcomes).map Module.path).Nodup) :
    Agrees (projectOf root outcomes) (Graph.ofModules (modules outcomes)) where
  nodes := by
    unfold OrderedMap.keys
    rw [Graph.entries_nodes_ofModules h, List.map_map]
    rfl
  imports := by
    unfold OrderedMap.values
    rw [Graph.entries_nodes_ofModules h, List.map_map, List.map_map]
    exact congrArg Nat.cast (total_eq_sum _)
  exports := by
    unfold OrderedMap.values
    rw [Graph.entries_nodes_ofModules h, List.map_map, List.map_map]
    exact congrArg Nat.cast (total_eq_sum _)
  edges := fun _ he => Graph.ends_of_mem_links (Graph.mem_allEdges_ofModules.1 he).1
  cycles := fun c hc v hv => by
    rw [Graph.cycles_ofModules] at hc
    obtain ⟨w, -, hlink⟩ := Graph.exists_links_of_mem_nodes hc hv
    exact (Graph.ends_of_mem_links (Graph.links_ofModules_iff.1 hlink)).1
  chains := fun _ hc _ he => Graph.ends_of_mem_links (Graph.mem_links_of_mem_cycles hc he)

-- ================================================================= uses

/-- An import leads to the module whose path is its target. -/
theorem uses_of_target (h : ofDirectory grammar t config root = .ok survey)
    {m : Module} (hm : m ∈ survey.project.modules) {i : Import} (hi : i ∈ m.imports)
    (hrel : Specifier.isRelative i.source = true)
    (htarget : Resolver.target t.here m.path i.source ∈
      survey.project.modules.map Module.path) :
    Uses t config survey.project.modules m.path
      (Resolver.target t.here m.path i.source) := by
  obtain ⟨m', hm', hpath⟩ := List.mem_map.1 htarget
  obtain ⟨path, r, hread, rfl⟩ := exists_ofFile_of_mem_modules h hm'
  have hfile := Reading.isFile_of_ofFile hread
  rw [hpath] at hfile
  exact ⟨m, hm, rfl, i, hi, Resolver.resolve_of_isFile_target hrel hfile⟩

/-- A use of a module is a link to it. -/
theorem mem_links_of_uses (h : ofDirectory grammar t config root = .ok survey)
    {s d : String} (hd : d ∈ survey.project.modules.map Module.path)
    (huses : Uses t config survey.project.modules s d) :
    (s, d) ∈ Graph.links survey.project.modules := by
  obtain ⟨m, hm, rfl, i, hi, hresolve⟩ := huses
  obtain ⟨path, r, hread, rfl⟩ := exists_ofFile_of_mem_modules h hm
  have hdependency := (Reading.mem_dependencies_of_ofFile hread).2 ⟨i, hi, hresolve⟩
  exact Graph.mem_links_iff.2 ⟨r.module, hm, rfl, d, hdependency, .inl ⟨hd, rfl⟩⟩

-- ========================================================= a mixed tree

/-- The text of `a.ts` in this tree. -/
def useOfB : Bytes :=
  Syntax.lineOf "import './b.ts';"

/-- A file that uses the next one, and one that is no text. -/
def mixedEntries : List (String × Entry) :=
  [("a.ts", .file useOfB), ("b.ts", .file []), ("c.ts", .file [0])]

def mixed : FileTree where
  top := .dir mixedEntries
  here := "/"

/-- What there is to say about `a.ts`: it uses `b.ts`. -/
def userOfB : Module := ⟨"/a.ts", [⟨"./b.ts", .named, []⟩], [], ["/b.ts"], []⟩

/-- What there is to say about `b.ts`: nothing. -/
def usedByA : Module := ⟨"/b.ts", [], [], [], []⟩

theorem proper_mixed : mixed.top.Proper := by
  refine .dir (by decide) (by decide) ?_
  simp only [mixedEntries, List.forall_mem_cons]
  exact ⟨.file _, .file _, .file _, List.forall_mem_nil _⟩

theorem look_mixed :
    mixed.look "/" = .ok (some (.dir mixedEntries)) ∧
      mixed.look "/a.ts" = .ok (some (.file useOfB)) ∧
      mixed.look "/b.ts" = .ok (some (.file [])) ∧
      mixed.look "/c.ts" = .ok (some (.file [0])) := by
  unfold FileTree.look
  refine ⟨?_, ?_, ?_, ?_⟩ <;>
    (rw [FileTree.spot_eq_walk (by decide) (by decide) (by decide)]; cbv)

theorem sourceFiles_mixed :
    Scan.sourceFiles mixed
        ⟨Config.effectiveExtensions {}, Config.excludeDirs {}⟩
        (Config.maxDepth {}) "/" =
      .ok ["/a.ts", "/b.ts", "/c.ts"] := by
  obtain ⟨hroot, ha, hb, hc⟩ := look_mixed
  have hpath : Path.located mixed.here "/" = "/" := by decide
  have horder : Scan.inOrder mixedEntries = mixedEntries := by cbv
  obtain ⟨ja, jb, jc⟩ : Path.join "/" "a.ts" = "/a.ts" ∧
      Path.join "/" "b.ts" = "/b.ts" ∧ Path.join "/" "c.ts" = "/c.ts" := by decide
  rw [Scan.sourceFiles_of_look (hpath.symm ▸ hroot), hpath]
  show (Scan.filesBelow _ _ (10 + 1) _ _).mapError _ = _
  unfold Scan.filesBelow
  rw [horder]
  simp only [mixedEntries, List.mapM_cons, List.mapM_nil, Scan.filesOf, ja, jb, jc,
    ha, hb, hc, Success.ok_bind]
  rfl

theorem ofFile_a :
    Reading.ofFile oneImport mixed (Config.resolverExtensions {}) "/a.ts" =
      .ok ⟨userOfB, 0⟩ := by
  obtain ⟨-, ha, hb, -⟩ := look_mixed
  have hpath : Path.absolute mixed.here "/a.ts" = "/a.ts" := by decide
  have hfindings : Reading.findings useOfB
      (oneImport (Reading.dialect "/a.ts") useOfB) = ⟨userOfB.imports, [], []⟩ := by cbv
  have htarget : Resolver.target mixed.here "/a.ts" "./b.ts" = "/b.ts" := by decide
  have hresolve : Resolver.resolve mixed.isFile (Config.resolverExtensions {})
      mixed.here "/a.ts" "./b.ts" = .ok (some "/b.ts") := by
    rw [Resolver.resolve_of_isFile_target (by decide), htarget]
    exact htarget.symm ▸ FileTree.isFile_of_look hb
  rw [Reading.ofFile_eq_ok_iff, hpath]
  refine ⟨FileTree.leadsSomewhere_of_look ha, useOfB, FileTree.read_of_look ha,
    by decide, ?_⟩
  refine Reading.ofTree_eq_ok_iff.2 ⟨[some "/b.ts"], ?_, ?_⟩
  · rw [hfindings]
    exact Success.mapM_eq_ok_iff.2 (.cons hresolve .nil)
  · rw [hfindings]
    rfl

theorem ofFile_b :
    Reading.ofFile oneImport mixed (Config.resolverExtensions {}) "/b.ts" =
      .ok ⟨usedByA, 0⟩ := by
  obtain ⟨-, -, hb, -⟩ := look_mixed
  have hpath : Path.absolute mixed.here "/b.ts" = "/b.ts" := by decide
  have hfindings : Reading.findings []
      (oneImport (Reading.dialect "/b.ts") []) = ⟨[], [], []⟩ := by cbv
  rw [Reading.ofFile_eq_ok_iff, hpath]
  refine ⟨FileTree.leadsSomewhere_of_look hb, [], FileTree.read_of_look hb, rfl, ?_⟩
  refine Reading.ofTree_eq_ok_iff.2 ⟨[], ?_, ?_⟩
  · rw [hfindings]
    rfl
  · rw [hfindings]
    rfl

theorem ofFile_c :
    Reading.ofFile oneImport mixed (Config.resolverExtensions {}) "/c.ts" =
      .error (.notText "/c.ts") := by
  obtain ⟨-, -, -, hc⟩ := look_mixed
  have hpath : Path.absolute mixed.here "/c.ts" = "/c.ts" := by decide
  unfold Reading.ofFile
  dsimp only
  rw [hpath, FileTree.leadsSomewhere_of_look hc, FileTree.read_of_look hc]
  rfl

theorem exists_survey_mixed :
    ∃ survey, ofDirectory oneImport mixed {} "/" = .ok survey ∧
      survey.project.modules = [userOfB, usedByA] ∧
      survey.project.skipped = ["/c.ts"] := by
  have houtcomes : outcomes oneImport mixed {} ["/a.ts", "/b.ts", "/c.ts"] =
      [("/a.ts", .ok ⟨userOfB, 0⟩), ("/b.ts", .ok ⟨usedByA, 0⟩),
        ("/c.ts", .error (.notText "/c.ts"))] := by
    unfold outcomes
    simp only [List.map_cons, List.map_nil, ofFile_a, ofFile_b, ofFile_c]
  refine ⟨_, ofDirectory_eq_ok_iff.2 ⟨_, sourceFiles_mixed, rfl⟩, ?_, ?_⟩
  · show modules (outcomes _ _ _ _) = _
    rw [houtcomes]
    rfl
  · show skipped (outcomes _ _ _ _) = _
    rw [houtcomes]
    rfl

-- ========================================================= conservation

/-- Where there is a listing, each file of it is accounted for, and the
graph has room for all that could be read. -/
theorem survey_conserves (hproper : t.top.Proper)
    (h : Scan.sourceFiles t ⟨config.effectiveExtensions, config.excludeDirs⟩
      config.maxDepth root = .ok paths) :
    ∃ survey, ofDirectory grammar t config root = .ok survey ∧
      Accounts grammar t config paths survey.project ∧
      ∃ g, survey.project.graph = some g ∧ Agrees survey.project g := by
  have hsurvey : ofDirectory grammar t config root =
      .ok (ofPaths grammar t config root paths) := ofDirectory_eq_ok_iff.2 ⟨paths, h, rfl⟩
  have haccounts := accounts_ofPaths grammar hproper h
  exact ⟨_, hsurvey, haccounts, _, graph_of_ofDirectory hsurvey,
    agrees_ofModules haccounts.distinct⟩

theorem survey_conserves_mixed :
    mixed.top.Proper ∧
      Scan.sourceFiles mixed ⟨Config.effectiveExtensions {}, Config.excludeDirs {}⟩
        (Config.maxDepth {}) "/" = .ok ["/a.ts", "/b.ts", "/c.ts"] ∧
      ∃ survey, ofDirectory oneImport mixed {} "/" = .ok survey ∧
        survey.project.modules = [userOfB, usedByA] ∧
        survey.project.skipped = ["/c.ts"] ∧
        Accounts oneImport mixed {} ["/a.ts", "/b.ts", "/c.ts"] survey.project ∧
        ∃ g, survey.project.graph = some g ∧ Agrees survey.project g := by
  obtain ⟨survey, hsurvey, hmodules, hskipped⟩ := exists_survey_mixed
  obtain ⟨survey', hsurvey', haccounts, hgraph⟩ : ∃ survey,
      ofDirectory oneImport mixed {} "/" = .ok survey ∧ _ :=
    survey_conserves proper_mixed sourceFiles_mixed
  obtain rfl := Except.ok.inj (hsurvey.symm.trans hsurvey')
  exact ⟨proper_mixed, sourceFiles_mixed, survey, hsurvey, hmodules, hskipped,
    haccounts, hgraph⟩

/-- Where an import of one module leads to another, or to itself, there
is an edge, and the one is a dependent of the other. -/
theorem uses_linked (h : ofDirectory grammar t config root = .ok survey) :
    ∃ g, survey.project.graph = some g ∧
      ∀ s d, d ∈ survey.project.modules.map Module.path →
        Uses t config survey.project.modules s d →
          (∃ e ∈ g.edgesFrom s, e.target = d) ∧
          ∃ ss, g.dependents.find? d = some ss ∧ s ∈ ss := by
  refine ⟨_, graph_of_ofDirectory h, fun s d hd huses => ?_⟩
  have hlink := mem_links_of_uses h hd huses
  have hedge : ∃ e ∈ (Graph.ofModules survey.project.modules).edgesFrom s, e.target = d :=
    ⟨⟨s, d, .importing⟩, Graph.mem_edgesFrom_ofModules.2 ⟨rfl, hlink, rfl⟩, rfl⟩
  have hkey : d ∈ (Graph.ofModules survey.project.modules).dependents.keys := by
    rw [Graph.keys_dependents_ofModules, List.mem_eraseDups]
    exact hd
  obtain ⟨ss, hss⟩ := OrderedMap.mem_keys_iff.1 hkey
  have hmem := Graph.mem_dependents_iff.2 hedge
  rw [hss, Option.getD_some] at hmem
  exact ⟨hedge, ss, hss, hmem⟩

theorem uses_linked_mixed :
    ∃ survey, ofDirectory oneImport mixed {} "/" = .ok survey ∧
      "/b.ts" ∈ survey.project.modules.map Module.path ∧
      Uses mixed {} survey.project.modules "/a.ts" "/b.ts" ∧
      ∃ g, survey.project.graph = some g ∧
        (∃ e ∈ g.edgesFrom "/a.ts", e.target = "/b.ts") ∧
        ∃ ss, g.dependents.find? "/b.ts" = some ss ∧ "/a.ts" ∈ ss := by
  obtain ⟨survey, hsurvey, hmodules, -⟩ := exists_survey_mixed
  have htarget : Resolver.target mixed.here userOfB.path "./b.ts" = "/b.ts" := by decide
  have hpath : "/b.ts" ∈ survey.project.modules.map Module.path := by
    rw [hmodules]
    decide
  have hm : userOfB ∈ survey.project.modules := by
    rw [hmodules]
    exact List.mem_cons_self ..
  have hi : (⟨"./b.ts", .named, []⟩ : Import) ∈ userOfB.imports := List.mem_singleton_self _
  have huses := uses_of_target hsurvey hm hi (by decide) (by rw [htarget]; exact hpath)
  rw [htarget] at huses
  obtain ⟨g, hgraph, hlinked⟩ := uses_linked hsurvey
  exact ⟨survey, hsurvey, hpath, huses, g, hgraph, hlinked "/a.ts" "/b.ts" hpath huses⟩

end ModuleAtlas.Survey
