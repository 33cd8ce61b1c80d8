/-
From a module specifier to the file that it names.

Only a specifier that starts with `./` or `../` names a file of the
tree; every other one names something outside and resolves to nothing.
A relative one gives a target path, and the target a list of candidates,
tried in order: the target itself, then either the typed sources it may
be compiled from, if it has an extension, or the target with each
extension and the index files of the directory it may be. The first
candidate that is a file is the answer.

Whether a path is a file is a parameter (`FileTest`), since nothing else
about the tree matters here.
-/
import ModuleAtlas.Dialect
import ModuleAtlas.FileTree
import ModuleAtlas.Module

namespace ModuleAtlas

/-- Tells whether a path is a file, or that the system would not say. -/
abbrev FileTest := String → Except SystemError Bool

namespace Specifier

/-- The specifier names a file of the tree. -/
def isRelative (s : String) : Bool :=
  ['.', '/'].isPrefixOf s.toList || ['.', '.', '/'].isPrefixOf s.toList

/-- The specifier with slashes for backslashes and in normal form. A `./`
in front is kept unless the normal form starts with a dot already. -/
def normalize (s : String) : String :=
  let slashed := String.ofList (s.toList.map fun c => if c = '\\' then '/' else c)
  let normal := Path.normalize slashed
  if ['.', '/'].isPrefixOf slashed.toList && normal.toList.head? != some '.' then "./" ++ normal
  else normal

end Specifier

namespace Resolver

/-- The extensions to try: the given ones or, if none are given, those
of all source files. -/
def extensionsOr (extensions : List String) : List String :=
  if extensions.isEmpty then SourceName.extensions else extensions

/-- The path that a relative specifier in the file `fromPath` means. -/
def target (here fromPath specifier : String) : String :=
  Path.normalize
    (Path.join (Path.directory (Path.absolute here fromPath)) (Specifier.normalize specifier))

/-- The files that a target may stand for, in the order of preference. -/
def candidates (extensions : List String) (target : String) : List String :=
  match Path.splitExtension target with
  | (_, "") =>
    target :: (extensions.map (target ++ ·) ++
      extensions.map fun ext => Path.join target ("index" ++ ext))
  | (stem, ext) => target :: (SourceName.typedExtensions ext).map (stem ++ ·)

/-- The first of the paths that is a file. -/
def firstFile (isFile : FileTest) : List String → Except SystemError (Option String)
  | [] => .ok none
  | path :: paths => do
    if ← isFile path then return some path else firstFile isFile paths

/-- The file that a specifier in `fromPath` names, if there is one. -/
def resolve (isFile : FileTest) (extensions : List String) (here fromPath specifier : String) :
    Except SystemError (Option String) :=
  if Specifier.isRelative specifier then
    firstFile isFile (candidates extensions (target here fromPath specifier))
  else .ok none

/-- The relative imports of a module that lead to none of its
dependencies. -/
def unresolved (isFile : FileTest) (extensions : List String) (here : String) (m : Module) :
    Except SystemError (List Import) :=
  (m.imports.filter fun i => Specifier.isRelative i.source).filterM fun i => do
    match ← resolve isFile extensions here m.path i.source with
    | some path => return !m.dependencies.contains path
    | none => return true

end Resolver

end ModuleAtlas
