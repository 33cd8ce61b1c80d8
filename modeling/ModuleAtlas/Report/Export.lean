/-
A report as JSON. Its means are written with the fewest digits that
read back.
-/
import ModuleAtlas.Graph.Export
import ModuleAtlas.Report

namespace ModuleAtlas

def Popularity.toJson (p : Popularity) : Json :=
  .obj [("path", .str p.path), ("import_count", .int p.count),
    ("imported_by", .arr (p.importedBy.map .str))]

def Complexity.toJson (c : Complexity) : Json :=
  .obj [
    ("by_complexity", .arr (c.scores.map fun (path, score) =>
      .obj [("path", .str path), ("score", .int score)])),
    ("max_depth", .int c.maxDepth),
    ("avg_depth", .number c.meanDepth.text)]

/-- The members of a report, in order. -/
def Report.members (r : Report) : List (String × Json) := [
  ("summary", .obj [
    ("total_files", .int r.totalFiles),
    ("total_imports", .int r.totalImports),
    ("total_exports", .int r.totalExports),
    ("total_cycles", .int r.cycles.length)]),
  ("most_imported", .arr (r.mostImported.map Popularity.toJson)),
  ("unused_exports", .arr (r.unusedExports.map .str)),
  ("circular_dependencies", .arr (r.cycles.map Cycle.toJson)),
  ("isolated_files", .arr (r.isolated.map .str)),
  ("complexity", r.complexity.toJson)]

/-- The report with the time at which it was made. -/
def Report.toJson (r : Report) (timestamp : String) : Json :=
  .obj (r.members ++ [("timestamp", .str timestamp)])

end ModuleAtlas
