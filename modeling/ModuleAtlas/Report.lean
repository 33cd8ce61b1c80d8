/-
What a project's files say together: who is imported most, which exports
nobody names, which files stand alone, how long the chains are.

Every ranking is by a count, highest first, and keeps the order of first
mention among equals. Means are rounded to two places.
-/
import ModuleAtlas.Decimal.Binary64
import ModuleAtlas.Graph.Build

namespace ModuleAtlas

/-- The files of a project and their graph, as one run left them. -/
structure Project where
  rootPath : String
  modules : List Module
  totalImports : Int
  totalExports : Int
  graph : Option Graph
  skipped : List String

/-- The graph of the project, built from its files if it has none. -/
def Project.itsGraph (p : Project) : Graph :=
  p.graph.getD (Graph.build (p.modules.map .module))

-- ============================================================ rankings

/-- The items by falling count, equals in their old order. -/
def rankedBy {α : Type} (count : α → Nat) (items : List α) : List α :=
  items.mergeSort fun a b => count b ≤ count a

/-- The first `n` items; a negative `n` leaves out that many at the end. -/
def firstOf {α : Type} (n : Int) (items : List α) : List α :=
  if 0 ≤ n then items.take n.toNat else items.take (items.length - n.natAbs)

/-- The counts added up. -/
def total (counts : List Nat) : Nat := counts.foldl (· + ·) 0

/-- The mean of a total over a count, to two places; zero over nothing. -/
def mean (total : Int) (count : Nat) : Binary64 :=
  if count = 0 then .zero else (Binary64.ofQuotient total count).roundTo 2

-- ============================================================== report

/-- A file that others depend on, with the number of times that they do and
one importer for each time. -/
structure Popularity where
  path : String
  count : Nat
  importedBy : List String
  deriving Repr, DecidableEq

/-- The file is depended on once more. -/
def Popularity.add (p : Popularity) (importer : String) : Popularity :=
  { p with count := p.count + 1, importedBy := p.importedBy ++ [importer] }

structure Complexity where
  scores : List (String × Nat)
  maxDepth : Nat
  meanDepth : Binary64

structure Report where
  totalFiles : Nat
  totalImports : Int
  totalExports : Int
  mostImported : List Popularity
  unusedExports : List String
  cycles : List Cycle
  isolated : List String
  complexity : Complexity

namespace Project

/-- Every dependency of every file, with the file that has it. -/
def uses (p : Project) : List (String × String) :=
  p.modules.flatMap fun m => m.dependencies.map (·, m.path)

/-- What each dependency has come to, use by use. -/
def tally (p : Project) : OrderedMap Popularity :=
  p.uses.foldl
    (fun map (dep, by_) => map.upsert dep fun known => (known.getD ⟨dep, 0, []⟩).add by_) .empty

/-- All files that something depends on, the most popular first. -/
def popularity (p : Project) : List Popularity :=
  rankedBy Popularity.count p.tally.values

/-- The names that imports of the project bring in. -/
def importedNames (p : Project) : List String :=
  p.modules.flatMap fun m => m.imports.flatMap Import.specifiers

/-- Names that are used without being spelled out. -/
def isWildName (name : String) : Bool :=
  name == "default" || name == "*"

/-- The exports whose name no import brings in. -/
def unusedExports (p : Project) : List String :=
  let imported := p.importedNames
  p.modules.flatMap fun m => (m.exports.map Export.name).filter fun name =>
    !imported.contains name && !isWildName name

/-- The files without imports and exports. -/
def isolated (p : Project) : List String :=
  (p.modules.filter fun m => m.imports.isEmpty && m.exports.isEmpty).map Module.path

def complexity (p : Project) (g : Graph) : Complexity where
  scores := rankedBy Prod.snd (p.modules.map fun m => (m.path, m.imports.length + m.exports.length))
  maxDepth := g.depths.values.foldl max 0
  meanDepth := mean (total g.depths.values) g.depths.values.length

/-- The report, with at most `top` of the most imported files. -/
def report (p : Project) (top : Int) : Report :=
  let g := p.itsGraph
  { totalFiles := p.modules.length
    totalImports := p.totalImports
    totalExports := p.totalExports
    mostImported := firstOf top p.popularity
    unusedExports := p.unusedExports
    cycles := g.cycles
    isolated := p.isolated
    complexity := p.complexity g }

end Project

-- ========================================================== statistics

structure Statistics where
  totalFiles : Nat
  totalImports : Int
  totalExports : Int
  totalCycles : Nat
  meanImports : Binary64
  meanExports : Binary64
  mostDependencies : List (String × Nat)
  mostDependents : List (String × Nat)

/-- The first `top` pairs of a ranking by count that are not zero. -/
def topPairs (top : Int) (pairs : List (String × Nat)) : List (String × Nat) :=
  firstOf top ((rankedBy Prod.snd pairs).filter (0 < ·.2))

def Project.statistics (p : Project) (top : Int) : Statistics :=
  let g := p.itsGraph
  let files := p.modules.length
  { totalFiles := files
    totalImports := p.totalImports
    totalExports := p.totalExports
    totalCycles := g.cycles.length
    meanImports := mean p.totalImports files
    meanExports := mean p.totalExports files
    mostDependencies := topPairs top (p.modules.map fun m => (m.path, m.dependencies.length))
    mostDependents := topPairs top (g.dependents.entries.map fun (path, l) => (path, l.length)) }

end ModuleAtlas
