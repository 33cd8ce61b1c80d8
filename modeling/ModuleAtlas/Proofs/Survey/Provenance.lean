/-
Where the edges of a survey come from.

# No edge without a use

Each edge comes from a dependency of its source, and a dependency is
what one of the imports resolves to. So behind each edge is an import
that leads to a file, and the edge goes to what stands for that file
(`justified_of_mem_links`).

# What stands for a file

A specifier is tried with extensions that are not read, and may name a
file that has none of the extensions at all. Such a file is no module of
the survey, and the first module that agrees with it up to the source
extension stands in for it. `namesakes` is a tree where that makes an
edge between files of which neither uses the other.
-/
import Mathlib
import ModuleAtlas.Proofs.FileTree
import ModuleAtlas.Proofs.Survey.Basic
import ModuleAtlas.Proofs.Syntax.Address

namespace ModuleAtlas.Survey

open ModuleAtlas.Graph (StandsFor)
open Syntax (lineOf onLine)

variable {grammar : Grammar} {t : FileTree} {config : Config} {root : String}
    {survey : Survey}

-- ======================================================= justification

/-- A file is used at `s`: some import there resolves to it. -/
def Uses (t : FileTree) (config : Config) (modules : List Module)
    (s file : String) : Prop :=
  ∃ m ∈ modules, m.path = s ∧ ∃ i ∈ m.imports,
    Resolver.resolve t.isFile config.resolverExtensions t.here s i.source =
      .ok (some file)

/-- The step from `s` to `d` stands for the use of some file. -/
def Justified (t : FileTree) (config : Config) (modules : List Module)
    (s d : String) : Prop :=
  ∃ file, Uses t config modules s file ∧
    StandsFor (modules.map Module.path) file d

/-- Every link of a survey stands for a use. -/
theorem justified_of_mem_links
    (h : ofDirectory grammar t config root = .ok survey) {s d : String}
    (hlink : (s, d) ∈ Graph.links survey.project.modules) :
    Justified t config survey.project.modules s d := by
  obtain ⟨m, hm, rfl, file, hfile, hstands⟩ := Graph.mem_links_iff.1 hlink
  obtain ⟨path, r, hread, rfl⟩ := exists_ofFile_of_mem_modules h hm
  obtain ⟨i, hi, hresolve⟩ := (Reading.mem_dependencies_of_ofFile hread).1 hfile
  exact ⟨file, ⟨r.module, hm, rfl, i, hi, hresolve⟩, hstands⟩

-- =================================================== a tree of namesakes

/-- The text of `a.ts` in this tree. -/
def useOfData : Bytes :=
  lineOf "import './data.json';"

/-- The source files beside a file that is none: only the extension
`.ts` tells the name of one of them from its name. -/
def entries : List (String × Entry) :=
  [("a.ts", .file useOfData),
    ("data.json", .file []),
    ("data.json.ts", .file [])]

def namesakes : FileTree where
  top := .dir [("r", .dir entries)]
  here := "/"

/-- Takes an empty text for a program without statements, and any other
for one that imports a module for its effects. -/
def oneImport : Grammar := fun _ source =>
  let size := source.length
  onLine (.other "program") none true 0 size <|
    if source.isEmpty then []
    else [onLine .importStatement none true 0 size [
      onLine (.other "import") none false 0 6 [],
      onLine .string (some .source) true 7 (size - 1) [],
      onLine (.other ";") none false (size - 1) size []]]

/-- What there is to say about `a.ts`: it uses `data.json`. -/
def userOfData : Module where
  path := "/r/a.ts"
  imports := [⟨"./data.json", .named, []⟩]
  exports := []
  dependencies := ["/r/data.json"]
  faults := []

/-- What there is to say about `data.json.ts`: nothing. -/
def namesake : Module := ⟨"/r/data.json.ts", [], [], [], []⟩

theorem look_directory : namesakes.look "/r" = .ok (some (.dir entries)) := by
  unfold FileTree.look
  rw [FileTree.spot_eq_walk (by decide) (by decide) (by decide)]
  cbv

theorem look_user : namesakes.look "/r/a.ts" = .ok (some (.file useOfData)) := by
  unfold FileTree.look
  rw [FileTree.spot_eq_walk (by decide) (by decide) (by decide)]
  cbv

theorem look_data : namesakes.look "/r/data.json" = .ok (some (.file [])) := by
  unfold FileTree.look
  rw [FileTree.spot_eq_walk (by decide) (by decide) (by decide)]
  cbv

theorem look_namesake :
    namesakes.look "/r/data.json.ts" = .ok (some (.file [])) := by
  unfold FileTree.look
  rw [FileTree.spot_eq_walk (by decide) (by decide) (by decide)]
  cbv

/-- `data.json` is found but not listed. -/
theorem sourceFiles_namesakes :
    Scan.sourceFiles namesakes
        ⟨Config.effectiveExtensions {}, Config.excludeDirs {}⟩
        (Config.maxDepth {}) "/r" =
      .ok ["/r/a.ts", "/r/data.json.ts"] := by
  have hroot : Path.located namesakes.here "/r" = "/r" := by decide
  have hentries : Scan.inOrder entries = entries := by cbv
  obtain ⟨huser, hdata, hnamesake⟩ : Path.join "/r" "a.ts" = "/r/a.ts" ∧
      Path.join "/r" "data.json" = "/r/data.json" ∧
      Path.join "/r" "data.json.ts" = "/r/data.json.ts" := by decide
  unfold Scan.sourceFiles
  dsimp only
  rw [hroot, look_directory]
  show (Scan.filesBelow _ _ (10 + 1) _ _).mapError _ = _
  unfold Scan.filesBelow
  rw [hentries]
  simp only [entries, List.mapM_cons, List.mapM_nil, Scan.filesOf, huser, hdata, hnamesake,
    look_user, look_data, look_namesake, Success.ok_bind]
  rfl

theorem resolve_data :
    Resolver.resolve namesakes.isFile (Config.resolverExtensions {})
        namesakes.here "/r/a.ts" "./data.json" =
      .ok (some "/r/data.json") := by
  have hcandidates : Resolver.candidates (Config.resolverExtensions {})
      (Resolver.target namesakes.here "/r/a.ts" "./data.json") =
        ["/r/data.json"] := by decide
  unfold Resolver.resolve
  rw [if_pos (by decide), hcandidates]
  unfold Resolver.firstFile
  rw [FileTree.isFile_of_look look_data]
  rfl

theorem ofFile_user :
    Reading.ofFile oneImport namesakes (Config.resolverExtensions {})
        "/r/a.ts" =
      .ok ⟨userOfData, 0⟩ := by
  have hpath : Path.absolute namesakes.here "/r/a.ts" = "/r/a.ts" := by decide
  have hfindings : Reading.findings useOfData
      (oneImport (Reading.dialect "/r/a.ts") useOfData) =
        ⟨userOfData.imports, [], []⟩ := by cbv
  rw [Reading.ofFile_eq_ok_iff, hpath]
  refine ⟨FileTree.leadsSomewhere_of_look look_user, useOfData,
    FileTree.read_of_look look_user, by decide, ?_⟩
  refine Reading.ofTree_eq_ok_iff.2 ⟨[some "/r/data.json"], ?_, ?_⟩
  · rw [hfindings]
    exact Success.mapM_eq_ok_iff.2 (.cons resolve_data .nil)
  · rw [hfindings]
    rfl

theorem ofFile_namesake :
    Reading.ofFile oneImport namesakes (Config.resolverExtensions {})
        "/r/data.json.ts" =
      .ok ⟨namesake, 0⟩ := by
  have hpath : Path.absolute namesakes.here "/r/data.json.ts" =
      "/r/data.json.ts" := by decide
  have hfindings : Reading.findings []
      (oneImport (Reading.dialect "/r/data.json.ts") []) = ⟨[], [], []⟩ := by cbv
  rw [Reading.ofFile_eq_ok_iff, hpath]
  refine ⟨FileTree.leadsSomewhere_of_look look_namesake, [],
    FileTree.read_of_look look_namesake, rfl, ?_⟩
  refine Reading.ofTree_eq_ok_iff.2 ⟨[], ?_, ?_⟩
  · rw [hfindings]
    rfl
  · rw [hfindings]
    rfl

theorem exists_survey_namesakes :
    ∃ survey, ofDirectory oneImport namesakes {} "/r" = .ok survey ∧
      survey.project.modules = [userOfData, namesake] := by
  refine ⟨_, ofDirectory_eq_ok_iff.2 ⟨_, sourceFiles_namesakes, rfl⟩, ?_⟩
  show modules (outcomes _ _ _ _) = _
  unfold outcomes
  rw [List.map_cons, List.map_cons, List.map_nil, ofFile_user, ofFile_namesake]
  rfl

-- ========================================================== provenance

/-- Every edge of the graph of a survey stands for a use, and its cycles
are closed chains of such edges. -/
theorem edges_justified (h : ofDirectory grammar t config root = .ok survey) :
    ∃ g, survey.project.graph = some g ∧
      (∀ e ∈ g.allEdges,
        Justified t config survey.project.modules e.source e.target) ∧
      ∀ c ∈ g.cycles, c.nodes ≠ [] ∧ c = Cycle.ofNodes c.nodes ∧
        ∀ e ∈ c.edges,
          Justified t config survey.project.modules e.source e.target := by
  refine ⟨_, graph_of_ofDirectory h, fun e he => ?_,
    fun c hc => ⟨?_, ?_, fun e he => ?_⟩⟩
  · exact justified_of_mem_links h (Graph.mem_allEdges_ofModules.1 he).1
  · rw [Graph.cycles_ofModules] at hc
    obtain ⟨u, w, loop, hback, rfl⟩ := Graph.mem_findCycles_iff.1 hc
    exact hback.ne_nil
  · rw [Graph.cycles_ofModules] at hc
    obtain ⟨u, w, loop, hback, rfl⟩ := Graph.mem_findCycles_iff.1 hc
    rfl
  · exact justified_of_mem_links h (Graph.mem_links_of_mem_cycles hc he)

theorem edges_justified_namesakes :
    ∃ survey, ofDirectory oneImport namesakes {} "/r" = .ok survey ∧
      ∃ g, survey.project.graph = some g ∧
        (∀ e ∈ g.allEdges,
          Justified namesakes {} survey.project.modules e.source e.target) ∧
        ∀ c ∈ g.cycles, c.nodes ≠ [] ∧ c = Cycle.ofNodes c.nodes ∧
          ∀ e ∈ c.edges,
            Justified namesakes {} survey.project.modules e.source e.target := by
  obtain ⟨survey, hsurvey, _⟩ := exists_survey_namesakes
  exact ⟨survey, hsurvey, edges_justified hsurvey⟩

/-- An edge need not be a use itself: `a.ts` uses `data.json`, which is no
module, and the edge goes to `data.json.ts`. -/
theorem edge_without_use :
    ¬ ∀ (grammar : Grammar) (t : FileTree) (config : Config) (root : String)
        (survey : Survey), ofDirectory grammar t config root = .ok survey →
      ∀ g, survey.project.graph = some g →
        ∀ e ∈ g.allEdges,
          Uses t config survey.project.modules e.source e.target := by
  intro h
  obtain ⟨survey, hsurvey, hmodules⟩ := exists_survey_namesakes
  have hedge : (⟨"/r/a.ts", "/r/data.json.ts", .importing⟩ : Edge) ∈
      (Graph.ofModules survey.project.modules).allEdges := by
    rw [Graph.mem_allEdges_ofModules, hmodules]
    exact ⟨by decide, rfl⟩
  obtain ⟨m, hm, hpath, i, hi, hresolve⟩ :=
    h oneImport namesakes {} "/r" survey hsurvey _
      (graph_of_ofDirectory hsurvey) _ hedge
  rw [hmodules] at hm
  rcases List.mem_cons.1 hm with rfl | hm
  · obtain rfl : i = ⟨"./data.json", .named, []⟩ := List.mem_singleton.1 hi
    rw [resolve_data] at hresolve
    revert hresolve
    decide
  · obtain rfl : m = namesake := List.mem_singleton.1 hm
    cases hi

end ModuleAtlas.Survey
