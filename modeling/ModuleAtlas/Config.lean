/-
What a user can choose about a run.
-/
import ModuleAtlas.Dialect
import ModuleAtlas.Resolve

namespace ModuleAtlas

/-- The choices for a run over a directory, with their usual values. -/
structure Config where
  includeJavascript : Bool := true
  extensions : List String := [".ts", ".tsx", ".js", ".jsx"]
  excludeDirs : List String := ["node_modules", ".git", "dist", "build"]
  maxDepth : Int := 10
  verbose : Bool := false
  workers : Int := 4
  deriving Repr

namespace Config

/-- The extensions of the files that are read. -/
def effectiveExtensions (c : Config) : List String :=
  if c.includeJavascript then c.extensions
  else c.extensions.filter fun ext => ext != ".js" && ext != ".jsx"

/-- The extensions that a specifier is tried with. Files that are not
read can still be found this way. -/
def resolverExtensions (c : Config) : List String :=
  Resolver.extensionsOr c.extensions

end Config

end ModuleAtlas
