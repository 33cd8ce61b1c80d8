/-
What is known about one source file after it was read.

An import is one use of another module, with the local names it binds;
an export is one name that the file offers. `dependencies` are the files
that the imports lead to. A file whose text has faults lists them and
nothing else.
-/

namespace ModuleAtlas

-- ==================================================== imports, exports

inductive ImportKind where
  | default
  | named
  | asNamespace
  | commonjs
  | typeOnly
  deriving Repr, DecidableEq

def ImportKind.label : ImportKind → String
  | default => "default"
  | named => "named"
  | asNamespace => "namespace"
  | commonjs => "commonjs"
  | typeOnly => "type"

/-- One use of a module: the specifier as written, and the names. -/
structure Import where
  source : String
  kind : ImportKind
  specifiers : List String
  deriving Repr, DecidableEq

inductive ExportKind where
  | default
  | named
  | reExport
  deriving Repr, DecidableEq

def ExportKind.label : ExportKind → String
  | default => "default"
  | named => "named"
  | reExport => "re-export"

/-- One name that a file offers; `default` and `*` stand for the value
without a name and for all names of another module. -/
structure Export where
  name : String
  kind : ExportKind
  deriving Repr, DecidableEq

-- =============================================================== faults

/-- A place in a source text, both parts counted from one. -/
structure Location where
  line : Nat
  column : Nat
  deriving Repr, DecidableEq

/-- Something in a source text that could not be read. -/
structure Fault where
  message : String
  location : Location
  deriving Repr, DecidableEq

-- ============================================================== modules

/-- A source file and what it uses and offers. -/
structure Module where
  path : String
  imports : List Import
  exports : List Export
  dependencies : List String
  faults : List Fault
  deriving Repr, DecidableEq

end ModuleAtlas
