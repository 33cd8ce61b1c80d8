/-
Declarations and statements.

A statement that begins with one of the statement words is the statement
of this word. Other words are keywords only if a declaration follows
them that fits, so that `type` and `module` can be names as well.
-/
import ModuleAtlas.Grammar.Classes
import ModuleAtlas.Grammar.Markup

namespace ModuleAtlas.Grammar.Rule

-- ========================================================= declarations

def functionDeclarations : Rule :=
  let head := opt isAsync ++ word "function"
  let rest := as "name" anyName ++ signature
  oneOf [
    form "function_declaration" (head ++ rest ++ as "body" block),
    form "generator_function_declaration" (head ++ operator "*" ++ rest ++ as "body" block),
    form "function_signature" (typed ++ head ++ rest ++ stop .signature)]

def classDeclarations : Rule :=
  let rest := word "class" ++ className ++ classRest
  form "class_declaration" (many decorator ++ rest) <|>
    form "abstract_class_declaration" (typed ++ many decorator ++ word "abstract" ++ rest)

def variableDeclarations : Rule :=
  let ended := sepBy1 declarator comma ++ stop .expression
  form "lexical_declaration" (oneWord ["let", "const"] ++ ended) <|>
    form "variable_declaration" (word "var" ++ ended)

def enumDeclaration : Rule :=
  let one := form "enum_assignment" (as "name" propertyName ++ initializer) <|> propertyName
  form "enum_declaration" (
    opt (word "const") ++ word "enum" ++ as "name" anyName ++
    as "body" (form "enum_body" (braces (listOf one))))

def interfaceDeclaration : Rule :=
  let parents := form "extends_type_clause" (word "extends" ++ sepBy1 typeName comma)
  form "interface_declaration" (
    word "interface" ++ as "name" (leaf "type_identifier" (.name [])) ++
    opt (named .typeParameters) ++ opt parents ++ as "body" objectType)

def typeAlias : Rule :=
  form "type_alias_declaration" (
    word "type" ++ as "name" (leaf "type_identifier" (.name [])) ++ opt (named .typeParameters) ++
    sign "=" ++ as "value" type ++ stop .other)

/-- A name, or the name of something in a namespace. -/
def path : Rule := grow anyName (form "nested_identifier" (sign "." ++ anyName))

def moduleDeclaration : Rule :=
  form "module" (
    oneWord ["module", "namespace"] ++ as "name" (string <|> path) ++
    (as "body" block <|> notAhead (sign "\x7b")))

def importAlias : Rule :=
  form "import_alias" (word "import" ++ anyName ++ sign "=" ++ path ++ stop .other)

/-- The declaration of something that is defined elsewhere. -/
def ambient : Rule :=
  let property := word "module" ++ sign "." ++ memberName ++ sign ":" ++ type ++ stop .other
  form "ambient_declaration" (
    word "declare" ++ oneOf [declaration, word "global" ++ block, property])

def anyDeclaration : Rule := oneOf [
  typed ++ oneOf [
    enumDeclaration, interfaceDeclaration, typeAlias, importAlias, moduleDeclaration, ambient],
  functionDeclarations,
  classDeclarations,
  variableDeclarations]

-- ============================================================== imports

/-- What a module calls a thing: a name or a string. -/
def offeredName : Rule := string <|> anyName

def typeWords : Rule := oneWord ["type", "typeof"]

def importSpecifier : Rule :=
  let renamed := as "name" offeredName ++ word "as" ++ as "alias" anyName
  let plain := as "name" (leaf "identifier" (.name ["default"]))
  form "import_specifier" (oneOf [
    renamed,
    typed ++ typeWords ++ notAhead (word "as") ++ (renamed <|> plain),
    plain])

def importClause : Rule :=
  let space := form "namespace_import" (operator "*" ++ word "as" ++ anyName)
  let names := form "named_imports" (braces (listOf importSpecifier))
  form "import_clause" (oneOf [
    space,
    names,
    anyName ++ opt (comma ++ (space <|> names))])

def fromClause : Rule := word "from" ++ as "source" string

def importStatement : Rule :=
  let required := form "import_require_clause" (
    anyName ++ sign "=" ++ word "require" ++ parens (as "source" string))
  let withClause := (importClause ++ fromClause) <|> (typed ++ required)
  let attributes := form "import_attribute" (oneWord ["with", "assert"] ++ named .object)
  form "import_statement" (
    word "import" ++
    oneOf [typed ++ typeWords ++ withClause, withClause, as "source" string] ++
    (stop .other <|> (attributes ++ stop .other)))

-- ============================================================== exports

def exportSpecifier : Rule :=
  let rest := opt (word "as" ++ as "alias" offeredName)
  let named := fun (except : List String) =>
    (as "name" (string <|> leaf "identifier" (.name except)) ++ rest : Rule)
  form "export_specifier" (oneOf [
    typed ++ typeWords ++ named [],
    typed ++ named ["type", "typeof"],
    require (.dialect [.javascript]) ++ named []])

def exportStatement : Rule :=
  let clause := form "export_clause" (braces (listOf exportSpecifier))
  let space := form "namespace_export" (operator "*" ++ word "as" ++ offeredName)
  let named := clause ++ (stop .other <|> (fromClause ++ stop .other))
  let others := oneOf [
    (space <|> operator "*") ++ fromClause ++ stop .other,
    named,
    typed ++ word "type" ++ named,
    typed ++ operator "=" ++ expression ++ stop .expression,
    typed ++ word "as" ++ word "namespace" ++ anyName ++ stop .other]
  let usual := word "default" ++ (
    as "declaration" declaration <|> (as "value" expression ++ stop .expression))
  form "export_statement" (
    (word "export" ++ others) <|>
    (many decorator ++ word "export" ++ (usual <|> as "declaration" declaration)))

-- =========================================================== statements

def statementBlock : Rule := form "statement_block" (body (many statement))

def ifStatement : Rule :=
  form "if_statement" (
    word "if" ++ inParentheses ++ statement ++
    opt (form "else_clause" (word "else" ++ statement)))

def switchStatement : Rule :=
  let case := form "switch_case" (word "case" ++ expressions ++ sign ":" ++ many statement)
  let usual := form "switch_default" (word "default" ++ sign ":" ++ many statement)
  form "switch_statement" (
    word "switch" ++ inParentheses ++ form "switch_body" (body (many (case <|> usual))))

def forStatements : Rule :=
  let left := oneOf [
    word "var" ++ binding ++ opt initializer,
    oneWord ["let", "const"] ++ binding,
    destructuring,
    grow primary (oneOf [member, call, subscript, nonNull])]
  let through := left ++ oneWord ["in", "of"] ++ expressions
  let part := opt expressions ++ sign ";"
  let steps := (variableDeclarations <|> part) ++ part ++ opt expressions
  form "for_in_statement" (word "for" ++ opt (word "await") ++ parens through ++ statement) <|>
    form "for_statement" (word "for" ++ parens steps ++ statement)

def tryStatement : Rule :=
  let parameter := parens (binding ++ opt (typed ++ annotation))
  form "try_statement" (
    word "try" ++ block ++
    opt (form "catch_clause" (word "catch" ++ opt parameter ++ block)) ++
    opt (form "finally_clause" (word "finally" ++ block)))

/-- A statement of one word, and maybe what it is about. -/
def jump : Rule :=
  let label := anyName ++ stop .other
  oneOf [
    form "return_statement" (
      word "return" ++ (stop .other <|> (expressions ++ stop .expression))),
    form "throw_statement" (word "throw" ++ expressions ++ stop .expression),
    form "break_statement" (word "break" ++ (stop .other <|> label)),
    form "continue_statement" (word "continue" ++ (stop .other <|> label)),
    form "debugger_statement" (word "debugger" ++ stop .other)]

/-- An expression as a statement. A function or a class with a name is
no such statement but a declaration. -/
def expressionStatement : Rule :=
  let declared := (opt isAsync ++ word "function" ++ opt (operator "*") ++ anyName) <|>
    (many decorator ++ word "class" ++ className)
  form "expression_statement" (
    notAhead (oneOf [
      oneWord statementWords, typed ++ oneWord ["interface", "enum"], declared, blockLike]) ++
    expressions ++ stop .expression)

def anyStatement : Rule := oneOf [
  block,
  exportStatement,
  importStatement,
  form "empty_statement" (sign ";"),
  ifStatement,
  forStatements,
  form "while_statement" (word "while" ++ inParentheses ++ statement),
  form "do_statement" (
    word "do" ++ statement ++ word "while" ++ inParentheses ++ opt (sign ";")),
  tryStatement,
  form "with_statement" (word "with" ++ inParentheses ++ statement),
  switchStatement,
  jump,
  declaration,
  form "labeled_statement" (
    leaf "statement_identifier" (.name (statementWords ++ expressionWords)) ++ sign ":" ++ statement),
  expressionStatement]

end ModuleAtlas.Grammar.Rule
