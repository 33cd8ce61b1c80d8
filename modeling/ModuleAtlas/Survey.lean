/-
Reading a whole directory: its source files, their modules, the graph.

Every file found is accounted for: its module is among those of the
project, or its path among the skipped ones, in the order in which the
files were found. On the way the survey says how far it is (`Progress`)
and what happened (`LogLine`).
-/
import ModuleAtlas.Config
import ModuleAtlas.Reading
import ModuleAtlas.Report
import ModuleAtlas.Scan

namespace ModuleAtlas

-- ================================================================= logs

inductive Level where
  | debug
  | info
  | warning
  deriving Repr, DecidableEq

def Level.label : Level → String
  | debug => "DEBUG"
  | info => "INFO"
  | warning => "WARNING"

/-- Something that happened: who says it, and what. -/
structure LogLine where
  level : Level
  speaker : String
  text : String
  deriving Repr, DecidableEq

def LogLine.render (l : LogLine) : String :=
  l.level.label ++ " " ++ l.speaker ++ ": " ++ l.text

/-- How far a stage of the survey is. -/
structure Progress where
  stage : String
  done : Nat
  total : Nat
  deriving Repr, DecidableEq

-- ============================================================== reading

namespace Survey

/-- What came of one file. -/
abbrev Outcome := String × Except Failure Reading

/-- Reads each of the files. -/
def outcomes (grammar : Grammar) (t : FileTree) (config : Config) (paths : List String) :
    List Outcome :=
  paths.map fun path => (path, Reading.ofFile grammar t config.resolverExtensions path)

/-- The modules of the files that could be read. -/
def modules (outcomes : List Outcome) : List Module :=
  outcomes.filterMap fun (_, o) => match o with
    | .ok r => some r.module
    | .error _ => none

/-- The files that could not be read. -/
def skipped (outcomes : List Outcome) : List String :=
  outcomes.filterMap fun (path, o) => match o with
    | .ok _ => none
    | .error _ => some path

/-- The files and what was read from them, as a project. -/
def projectOf (root : String) (outcomes : List Outcome) : Project :=
  let modules := modules outcomes
  { rootPath := root
    modules := modules
    totalImports := total (modules.map (·.imports.length))
    totalExports := total (modules.map (·.exports.length))
    graph := some (Graph.build (modules.map .module))
    skipped := skipped outcomes }

-- ============================================================= speaking

/-- What is logged about one file. -/
def logOf (verbose : Bool) : Outcome → List LogLine
  | (path, .error e) =>
    let level := match e with
      | .unreadable .. => .warning
      | _ => if verbose then .warning else .debug
    [⟨level, "tsdeps.analyzer", s!"Skipping {path}: {e.message}"⟩]
  | (_, .ok r) =>
    let m := r.module
    let parsed := s!"Parsed {m.path}: {m.imports.length} imports, {m.exports.length} exports, " ++
      s!"{m.dependencies.length} dependencies"
    (if r.syntaxFaults = 0 then []
      else [⟨.debug, "tsdeps.parser",
        s!"{m.path}: {r.syntaxFaults} syntax error(s), skipping traversal"⟩]) ++
      [⟨.debug, "tsdeps.parser", parsed⟩]

/-- What is logged about a survey. -/
def logLines (verbose : Bool) (p : Project) (outcomes : List Outcome) : List LogLine :=
  let g := p.itsGraph
  [⟨.info, "tsdeps.analyzer", s!"Found {outcomes.length} source files under {p.rootPath}"⟩] ++
    outcomes.flatMap (logOf verbose) ++
    [⟨.info, "tsdeps.analyzer", s!"Analyzed {p.modules.length} files ({p.skipped.length} skipped): " ++
      s!"{g.edgeCount} edges, {g.cycles.length} cycles"⟩]

/-- The steps of a survey that found so many files. -/
def steps (files : Nat) : List Progress :=
  [⟨"Scanning", 0, 1⟩, ⟨"Scanning", 1, 1⟩] ++
    (List.range (files + 1)).map (⟨"Parsing", ·, files⟩) ++
    [⟨"Building graph", 0, 1⟩, ⟨"Building graph", 1, 1⟩]

end Survey

-- =============================================================== survey

/-- A project and what was said while it was surveyed. -/
structure Survey where
  project : Project
  log : List LogLine
  progress : List Progress

/-- Surveys the directory `root`. -/
def Survey.ofDirectory (grammar : Grammar) (t : FileTree) (config : Config) (root : String) :
    Except Failure Survey := do
  let paths ← Scan.sourceFiles t ⟨config.effectiveExtensions, config.excludeDirs⟩ config.maxDepth root
  let outcomes := Survey.outcomes grammar t config paths
  let project := Survey.projectOf (Path.located t.here root) outcomes
  return ⟨project, Survey.logLines config.verbose project outcomes, Survey.steps paths.length⟩

end ModuleAtlas
