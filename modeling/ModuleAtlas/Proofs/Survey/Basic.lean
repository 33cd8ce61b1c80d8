/-
What a survey consists of.

A survey that succeeds listed the files below its root and read each of
them (`ofDirectory_eq_ok_iff`). The modules of its project are those of
the files that could be read, and its graph is the one built from them:
none is passed over, since each has a path (`graph_of_ofDirectory`).
-/
import ModuleAtlas.Survey
import ModuleAtlas.Proofs.Graph.Building
import ModuleAtlas.Proofs.Reading

namespace ModuleAtlas.Survey

variable {grammar : Grammar} {t : FileTree} {config : Config} {root : String}
    {survey : Survey}

-- ============================================================ outcomes

theorem mem_outcomes_iff {paths : List String} {path : String}
    {o : Except Failure Reading} :
    (path, o) ∈ outcomes grammar t config paths ↔
      path ∈ paths ∧
        o = Reading.ofFile grammar t config.resolverExtensions path := by
  unfold outcomes
  rw [List.mem_map]
  constructor
  · intro h
    obtain ⟨path', hpath, heq⟩ := h
    obtain ⟨rfl, rfl⟩ := Prod.mk.inj heq
    exact ⟨hpath, rfl⟩
  · intro h
    obtain ⟨hpath, rfl⟩ := h
    exact ⟨path, hpath, rfl⟩

/-- The modules are what the readings say. -/
theorem mem_modules_iff {outcomes : List Outcome} {m : Module} :
    m ∈ modules outcomes ↔
      ∃ path r, (path, .ok r) ∈ outcomes ∧ r.module = m := by
  unfold modules
  rw [List.mem_filterMap]
  constructor
  · intro h
    obtain ⟨⟨path, o⟩, hmem, hm⟩ := h
    cases o with
    | error e => cases hm
    | ok r => exact ⟨path, r, hmem, Option.some.inj hm⟩
  · intro h
    obtain ⟨path, r, hmem, rfl⟩ := h
    exact ⟨(path, .ok r), hmem, rfl⟩

/-- The skipped files are those that could not be read. -/
theorem mem_skipped_iff {outcomes : List Outcome} {path : String} :
    path ∈ skipped outcomes ↔ ∃ e, (path, .error e) ∈ outcomes := by
  unfold skipped
  rw [List.mem_filterMap]
  constructor
  · intro h
    obtain ⟨⟨path', o⟩, hmem, hpath⟩ := h
    cases o with
    | ok r => cases hpath
    | error e =>
        obtain rfl : path' = path := Option.some.inj hpath
        exact ⟨e, hmem⟩
  · intro h
    obtain ⟨e, hmem⟩ := h
    exact ⟨(path, .error e), hmem, rfl⟩

-- ============================================================= surveys

/-- The survey of a directory with these source files. -/
def ofPaths (grammar : Grammar) (t : FileTree) (config : Config) (root : String)
    (paths : List String) : Survey :=
  let outcomes := outcomes grammar t config paths
  let project := projectOf (Path.located t.here root) outcomes
  ⟨project, logLines config.verbose project outcomes, steps paths.length⟩

/-- A survey needs a listing only: whatever it lists, something comes of
each file. -/
theorem ofDirectory_eq_ok_iff :
    ofDirectory grammar t config root = .ok survey ↔
      ∃ paths,
        Scan.sourceFiles t ⟨config.effectiveExtensions, config.excludeDirs⟩
          config.maxDepth root = .ok paths ∧
        survey = ofPaths grammar t config root paths := by
  unfold ofDirectory
  rw [Success.bind_eq_ok_iff]
  constructor
  · intro h
    obtain ⟨paths, hpaths, h⟩ := h
    exact ⟨paths, hpaths, (Except.ok.inj h).symm⟩
  · intro h
    obtain ⟨paths, hpaths, rfl⟩ := h
    exact ⟨paths, hpaths, rfl⟩

/-- Every module of a survey was read from a file. -/
theorem exists_ofFile_of_mem_modules
    (h : ofDirectory grammar t config root = .ok survey) {m : Module}
    (hm : m ∈ survey.project.modules) :
    ∃ path r, Reading.ofFile grammar t config.resolverExtensions path = .ok r ∧
      r.module = m := by
  obtain ⟨paths, -, rfl⟩ := ofDirectory_eq_ok_iff.1 h
  obtain ⟨path, r, hmem, hr⟩ := mem_modules_iff.1 hm
  exact ⟨path, r, (mem_outcomes_iff.1 hmem).2.symm, hr⟩

theorem path_ne_empty (h : ofDirectory grammar t config root = .ok survey)
    {m : Module} (hm : m ∈ survey.project.modules) : m.path ≠ "" := by
  obtain ⟨path, r, hfile, rfl⟩ := exists_ofFile_of_mem_modules h hm
  rw [Reading.path_of_ofFile hfile]
  exact Path.absolute_ne_empty _ _

/-- The graph of a survey is built from all of its modules. -/
theorem graph_of_ofDirectory
    (h : ofDirectory grammar t config root = .ok survey) :
    survey.project.graph = some (Graph.ofModules survey.project.modules) := by
  have hpaths := fun m hm => path_ne_empty (m := m) h hm
  obtain ⟨paths, -, rfl⟩ := ofDirectory_eq_ok_iff.1 h
  exact congrArg some (Graph.build_map_module hpaths)

end ModuleAtlas.Survey
