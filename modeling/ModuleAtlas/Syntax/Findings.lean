/-
What a sound syntax tree says about imports and exports.

# Three kinds of nodes count

An import statement and a call of `require` each say one import at most;
an export statement says the names it offers and, if it takes them from
elsewhere, one import. Every other node says nothing.

# One node at a time

What a node says depends on it and its parent only. It is read into
what was found before it (`Reader`): names and specifiers are added there
as they are made out. A node that cannot be read to its end leaves one
fault, and the nodes below and behind it are read all the same.
-/
import ModuleAtlas.Syntax.Walk

namespace ModuleAtlas.Syntax

/-- What was found in a tree or at a node. -/
structure Findings where
  imports : List Import
  exports : List Export
  faults : List Fault
  deriving Repr, DecidableEq

namespace Findings

def nothing : Findings := ⟨[], [], []⟩

end Findings

/-- Reads a node into what was found so far. Where this fails, what was
added before remains. -/
abbrev Reader := ExceptT String (StateM Findings)

namespace Reader

def addImports (imports : List Import) : Reader Unit :=
  modify fun found => { found with imports := found.imports ++ imports }

def addExports (exports : List Export) : Reader Unit :=
  modify fun found => { found with exports := found.exports ++ exports }

/-- What was found after the reading, and whether it came to its end. -/
def read (reader : Reader Unit) (found : Findings) : Except String Unit × Findings :=
  (reader.run.run found).run

end Reader

/-- Tells which child of a node is in a role, or fails to. -/
abbrev Accessor := Node → Role → Except String (Option Node)

variable (ask : Accessor) (source : Bytes)

namespace Node

-- ============================================================ literals

/-- The text between the quotes of a string literal, escapes as they are
written. -/
def stringValue (n : Node) : String :=
  let cs := n.characters source
  match cs with
  | q :: rest =>
    if (q = '\'' ∨ q = '"') ∧ rest.getLast? = some q then String.ofList rest.dropLast
    else String.ofList cs
  | [] => ""

/-- The value of a node that must be a string literal to count. -/
def stringValue? (n : Option Node) : Option String :=
  match n with
  | some n => if n.kind = .string then some (n.stringValue source) else none
  | none => none

/-- The first child in one of two roles, the first role preferred. -/
def childIn? (n : Node) (preferred otherwise : Role) : Except String (Option Node) := do
  match ← ask n preferred with
  | some c => return some c
  | none => ask n otherwise

/-- The texts of the specifiers of one kind below a clause: the alias of
each, or its name where there is none. -/
def specifierNames (kind : Kind) (clause : Node) : Except String (List String) := do
  let found ← (clause.namedChildren.filter (·.kind == kind)).mapM (childIn? ask · .newName .name)
  return found.filterMap fun n => n.map (·.text source)

-- =================================================== import statements

/-- The statement has the word `type` or `typeof` of its own. -/
def isTypeOnly (n : Node) : Bool :=
  n.children.any fun c => c.kind == .typeWord || c.kind == .typeofWord

/-- The names that a clause binds so far, and the kind of the import
they make. -/
structure Clause where
  names : List String
  kind : ImportKind
  hasDefault : Bool

/-- Takes in one child of an import clause. A default name, names in
braces and a namespace each decide the kind, but braces do not where a
default name came before, and nothing does in a type-only import. -/
def Clause.add (typeOnly : Bool) (c : Clause) (child : Node) : Except String Clause := do
  let decide := fun kind => if typeOnly then c.kind else kind
  match child.kind with
  | .identifier =>
    return { names := c.names ++ [child.text source], kind := decide .default, hasDefault := true }
  | .namespaceImport =>
    let name := (child.firstOfKind .identifier).map (·.text source)
    return { c with names := c.names ++ name.toList, kind := decide .asNamespace }
  | .namedImports =>
    let names ← specifierNames ask source .importSpecifier child
    return { c with
      names := c.names ++ names
      kind := if c.hasDefault then c.kind else decide .named }
  | _ => return c

/-- What an import statement says. -/
def importOf? (n : Node) : Except String (Option Import) := do
  match n.firstOfKind .importRequireClause with
  | some clause =>
    match stringValue? source (← ask clause .source) with
    | none => return none
    | some path =>
      let name := (clause.firstOfKind .identifier).map (·.text source)
      return some ⟨path, .commonjs, name.toList⟩
  | none =>
    match stringValue? source (← ask n .source) with
    | none => return none
    | some path =>
      match n.firstOfKind .importClause with
      | none => return some ⟨path, .named, []⟩
      | some clause =>
        let typeOnly := n.isTypeOnly
        let start : Clause := ⟨[], if typeOnly then .typeOnly else .named, false⟩
        let c ← clause.namedChildren.foldlM (Clause.add ask source typeOnly) start
        return some ⟨path, c.kind, c.names⟩

-- ==================================================== calls of require

/-- The node that holds the name that one part of an object pattern
binds, if it is a part that binds one name. -/
def patternName? (part : Node) : Except String (Option Node) :=
  match part.kind with
  | .shorthandPattern => .ok (some part)
  | .pairPattern => ask part .value
  | .assignmentPattern => ask part .left
  | .restPattern => .ok (part.firstOfKind .identifier)
  | _ => .ok none

/-- The names that an object pattern binds. -/
def patternNames (pattern : Node) : Except String (List String) := do
  let found ← pattern.namedChildren.mapM (patternName? ask)
  return found.filterMap fun n => n.bind fun n =>
    if n.kind = .identifier ∨ n.kind = .shorthandPattern then some (n.text source) else none

/-- The names that a declarator binds to the value of a call. -/
def declaratorNames (declarator : Node) : Except String (List String) := do
  match ← ask declarator .name with
  | none => return []
  | some name =>
    match name.kind with
    | .identifier => return [name.text source]
    | .objectPattern => patternNames ask source name
    | _ => return []

/-- What a call says, if it is one of `require` with a string literal. -/
def requireOf? (parent : Option Node) (n : Node) : Except String (Option Import) := do
  match ← ask n .function with
  | none => return none
  | some function =>
    if function.kind ≠ .identifier ∨ function.text source ≠ "require" then return none
    match ← ask n .arguments with
    | none => return none
    | some arguments =>
      match stringValue? source arguments.namedChildren.head? with
      | none => return none
      | some path =>
        let names ← match parent with
          | some p => if p.kind = .variableDeclarator then declaratorNames ask source p else pure []
          | none => pure []
        return some ⟨path, .commonjs, names⟩

-- =================================================== export statements

mutual

/-- The names that a declaration offers when it is exported. -/
def declaredNames : Node → Except String (List String)
  | n@(node l cs) =>
    if l.kind = .ambientDeclaration then firstDeclaredNames cs
    else if l.kind.isNamedDeclaration then do
      return ((← ask n .name).map (·.text source)).toList
    else if l.kind.isVariableDeclaration then do
      let names ← (n.namedChildren.filter (·.kind == .variableDeclarator)).mapM (ask · .name)
      return names.filterMap fun name => name.bind fun name =>
        if name.kind = .identifier then some (name.text source) else none
    else return []

/-- The names of the first of these declarations that offers any. -/
def firstDeclaredNames : List Node → Except String (List String)
  | [] => return []
  | c :: cs =>
    if c.label.named then do
      let names ← declaredNames c
      if names.isEmpty then firstDeclaredNames cs else return names
    else firstDeclaredNames cs

end

/-- Reads an export statement. -/
def readExport (n : Node) : Reader Unit := do
  let from_ ← ask n .source
  let path := stringValue? source from_
  match n.firstOfKind .exportClause with
  | some clause =>
    let names ← specifierNames ask source .exportSpecifier clause
    let kind := if from_.isSome then ExportKind.reExport else .named
    Reader.addExports (names.map fun name => ⟨name, kind⟩)
    -- names taken from elsewhere are used here, too
    Reader.addImports (path.toList.map fun path => ⟨path, .named, names⟩)
  | none =>
    if from_.isSome then
      Reader.addExports [⟨"*", .reExport⟩]
      Reader.addImports (path.toList.map fun path => ⟨path, .asNamespace, ["*"]⟩)
    else if n.children.any fun c => c.kind == .defaultWord || c.kind == .equalsSign then
      Reader.addExports [⟨"default", .default⟩]
    else
      match ← ask n .declaration with
      | none => return
      | some declaration =>
        let names ← declaredNames ask source declaration
        Reader.addExports (names.map fun name => ⟨name, .named⟩)

end Node

-- ============================================================ all nodes

namespace Visit

/-- Reads a node of any kind. -/
def reader (v : Visit) : Reader Unit :=
  match v.node.kind with
  | .importStatement => do Reader.addImports (← v.node.importOf? ask source).toList
  | .callExpression => do Reader.addImports (← v.node.requireOf? ask source v.parent).toList
  | .exportStatement => v.node.readExport ask source
  | _ => return

/-- The text of a failure; one without a text is called by its class. -/
def troubleText (text : String) : String :=
  if text = "" then "ValueError" else text

/-- What was found after a look at a node. If the node could not be read,
that is a fault at its place. -/
def look (found : Findings) (v : Visit) : Findings :=
  match (v.reader ask source).read found with
  | (.ok _, found) => found
  | (.error text, found) =>
    { found with faults := found.faults ++ [⟨troubleText text, v.node.location⟩] }

end Visit

/-- What is found in a tree. -/
def Node.findings (root : Node) : Findings :=
  walk (Visit.look ask source) (fun _ _ => true) [.ofRoot root] .nothing

end ModuleAtlas.Syntax
