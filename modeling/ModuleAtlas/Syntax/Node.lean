/-
Syntax trees of source texts.

A node has a kind, the part of the text it covers, and in its parent a
role, if it plays one. Kinds and roles that nothing here asks about keep
their names only. A mark says that the text did not fit the grammar at
this node; a tree without marks is sound.

A node can be unable to tell its roles apart. Asking it for a child by
role then fails with the text it carries, and whoever asks has to cope.
-/
import ModuleAtlas.FileTree
import ModuleAtlas.Module
import ModuleAtlas.Text.Utf8

namespace ModuleAtlas.Syntax

-- ================================================================ kinds

/-- What a node is. -/
inductive Kind where
  | importStatement
  | importClause
  | importRequireClause
  | importSpecifier
  | namespaceImport
  | namedImports
  | exportStatement
  | exportClause
  | exportSpecifier
  | callExpression
  | identifier
  | string
  | variableDeclarator
  | objectPattern
  | shorthandPattern
  | pairPattern
  | assignmentPattern
  | restPattern
  | functionDeclaration
  | generatorDeclaration
  | functionSignature
  | classDeclaration
  | abstractClassDeclaration
  | interfaceDeclaration
  | typeAliasDeclaration
  | enumDeclaration
  | lexicalDeclaration
  | variableDeclaration
  | ambientDeclaration
  | typeWord
  | typeofWord
  | defaultWord
  | equalsSign
  | other (name : String)
  deriving Repr, DecidableEq, Inhabited

namespace Kind

/-- The kinds that have a constructor, with their names. -/
def table : List (Kind × String) := [
  (importStatement, "import_statement"),
  (importClause, "import_clause"),
  (importRequireClause, "import_require_clause"),
  (importSpecifier, "import_specifier"),
  (namespaceImport, "namespace_import"),
  (namedImports, "named_imports"),
  (exportStatement, "export_statement"),
  (exportClause, "export_clause"),
  (exportSpecifier, "export_specifier"),
  (callExpression, "call_expression"),
  (identifier, "identifier"),
  (string, "string"),
  (variableDeclarator, "variable_declarator"),
  (objectPattern, "object_pattern"),
  (shorthandPattern, "shorthand_property_identifier_pattern"),
  (pairPattern, "pair_pattern"),
  (assignmentPattern, "object_assignment_pattern"),
  (restPattern, "rest_pattern"),
  (functionDeclaration, "function_declaration"),
  (generatorDeclaration, "generator_function_declaration"),
  (functionSignature, "function_signature"),
  (classDeclaration, "class_declaration"),
  (abstractClassDeclaration, "abstract_class_declaration"),
  (interfaceDeclaration, "interface_declaration"),
  (typeAliasDeclaration, "type_alias_declaration"),
  (enumDeclaration, "enum_declaration"),
  (lexicalDeclaration, "lexical_declaration"),
  (variableDeclaration, "variable_declaration"),
  (ambientDeclaration, "ambient_declaration"),
  (typeWord, "type"),
  (typeofWord, "typeof"),
  (defaultWord, "default"),
  (equalsSign, "=")]

/-- The kind of this name. -/
def ofName (name : String) : Kind :=
  match table.find? (·.2 == name) with
  | some (kind, _) => kind
  | none => other name

/-- The name of a kind. -/
def name : Kind → String
  | other name => name
  | kind =>
    match table.find? (·.1 == kind) with
    | some (_, name) => name
    | none => ""

/-- A declaration that offers one name, the one it declares. -/
def isNamedDeclaration : Kind → Bool
  | functionDeclaration | generatorDeclaration | functionSignature | classDeclaration
  | abstractClassDeclaration | interfaceDeclaration | typeAliasDeclaration | enumDeclaration => true
  | _ => false

/-- A declaration that offers the names of its declarators. -/
def isVariableDeclaration : Kind → Bool
  | lexicalDeclaration | variableDeclaration => true
  | _ => false

end Kind

/-- What a child is to its parent. -/
inductive Role where
  | source
  | function
  | arguments
  | name
  | newName
  | declaration
  | value
  | left
  | other (name : String)
  deriving Repr, DecidableEq

/-- The role of this name. -/
def Role.ofName : String → Role
  | "source" => source
  | "function" => function
  | "arguments" => arguments
  | "name" => name
  | "alias" => newName
  | "declaration" => declaration
  | "value" => value
  | "left" => left
  | text => other text

-- ================================================================ nodes

/-- How a node relates to the grammar: it fits, it is text that does
not, or it is something that should be there. -/
inductive Mark where
  | sound
  | error
  | missing
  deriving Repr, DecidableEq, Inhabited

/-- A place in a text: its line and the number of bytes before it there,
both counted from zero. -/
structure Point where
  row : Nat
  column : Nat
  deriving Repr, DecidableEq, Inhabited

/-- The place before the byte with this index. -/
def Point.ofOffset (source : Bytes) (offset : Nat) : Point :=
  (source.take offset).foldl
    (fun p b => if b = 0x0a then ⟨p.row + 1, 0⟩ else ⟨p.row, p.column + 1⟩) ⟨0, 0⟩

/-- Everything about a node but its children. `named` tells the nodes of
the grammar from its bare words and signs; `trouble` is the text with
which a question for a role fails. -/
structure Label where
  kind : Kind
  role : Option Role
  named : Bool
  mark : Mark
  start : Nat
  stop : Nat
  place : Point
  trouble : Option String
  deriving Repr, DecidableEq, Inhabited

inductive Node where
  | node (label : Label) (children : List Node)
  deriving Repr, Inhabited

namespace Node

def label : Node → Label
  | node l _ => l

def children : Node → List Node
  | node _ cs => cs

def kind (n : Node) : Kind := n.label.kind

/-- The children that the grammar names. -/
def namedChildren (n : Node) : List Node :=
  n.children.filter (·.label.named)

/-- The first child of this kind. -/
def firstOfKind (n : Node) (kind : Kind) : Option Node :=
  n.children.find? (·.kind == kind)

/-- The first child in this role, if the node can tell. -/
def child? (n : Node) (role : Role) : Except String (Option Node) :=
  match n.label.trouble with
  | some text => .error text
  | none => .ok (n.children.find? (·.label.role == some role))

/-- The characters that the node covers. -/
def characters (source : Bytes) (n : Node) : List Char :=
  Text.Utf8.decode ((source.drop n.label.start).take (n.label.stop - n.label.start))

/-- The text that the node covers. -/
def text (source : Bytes) (n : Node) : String :=
  String.ofList (n.characters source)

/-- Where the node starts, counted from one. -/
def location (n : Node) : Location :=
  ⟨n.label.place.row + 1, n.label.place.column + 1⟩

mutual

/-- The node or one below it bears a mark. -/
def hasMark : Node → Bool
  | node l cs => l.mark != .sound || anyHasMark cs

def anyHasMark : List Node → Bool
  | [] => false
  | n :: ns => n.hasMark || anyHasMark ns

end

mutual

/-- The number of nodes of the tree. -/
def size : Node → Nat
  | node _ cs => sizeOfAll cs + 1

def sizeOfAll : List Node → Nat
  | [] => 0
  | n :: ns => n.size + sizeOfAll ns

end

end Node

end ModuleAtlas.Syntax
