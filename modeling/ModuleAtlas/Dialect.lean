/-
Source file names: which suffix belongs to which dialect, and which
names are spellings of one module.

A module may be named with or without its extension, and a `.js` name
may stand for the typed source it is compiled from. The tables here are
all that the other modules know about this.
-/
import ModuleAtlas.Path

namespace ModuleAtlas

/-- The three languages that source files are written in. -/
inductive Dialect where
  | typescript
  | tsx
  | javascript
  deriving Repr, DecidableEq

namespace Dialect

def name : Dialect → String
  | typescript => "typescript"
  | tsx => "tsx"
  | javascript => "javascript"

/-- The dialect of a file with this suffix, whatever the case of its
letters. A suffix of no known kind is read as the dialect that accepts
most. No letter outside ASCII has one of the letters of the table as its
lower-case form, so lowering ASCII is enough. -/
def ofSuffix (suffix : String) : Dialect :=
  match String.ofList (suffix.toList.map Char.toLower) with
  | ".ts" | ".mts" | ".cts" => typescript
  | ".js" | ".jsx" | ".mjs" | ".cjs" => javascript
  | _ => tsx

end Dialect

namespace SourceName

/-- The extensions of source files, in the order in which a name without
extension is tried with them. -/
def extensions : List String := [".ts", ".tsx", ".js", ".jsx"]

/-- The extensions of the typed sources that a compiled name may stand
for, in the order in which they are tried. -/
def typedExtensions : String → List String
  | ".js" => [".ts", ".tsx"]
  | ".jsx" => [".tsx", ".ts"]
  | _ => []

/-- The name without the first of these extensions that it ends in. -/
def strip (extensions : List String) (path : String) : String :=
  match extensions with
  | [] => path
  | ext :: rest =>
    if Text.endsWith path.toList ext.toList then
      String.ofList (path.toList.take (path.toList.length - ext.toList.length))
    else strip rest path

/-- The name without its source extension. Two names with the same stem
are taken for the same module if no exact match decides. -/
def stem (path : String) : String :=
  strip extensions path

end SourceName

end ModuleAtlas
