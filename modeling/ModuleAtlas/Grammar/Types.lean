/-
Types, and the heads of functions, whose parameters and results have
them.
-/
import ModuleAtlas.Grammar.Names

namespace ModuleAtlas.Grammar.Rule

-- ================================================================ lists

def typeParameters : Rule :=
  let constraint := form "constraint" ((word "extends" <|> sign ":") ++ type)
  let usual := form "default_type" (sign "=" ++ type)
  let one := form "type_parameter" (
    many (oneWord ["const", "in", "out"] ++ ahead anyName) ++ anyName ++ opt constraint ++ opt usual)
  form "type_parameters" (sign "<" ++ bracketed true (sepBy1 one comma ++ opt comma) ++ sign ">")

def typeArguments : Rule :=
  form "type_arguments" (sign "<" ++ bracketed true (sepBy1 type comma ++ opt comma) ++ sign ">")

-- ============================================================ functions

/-- What a function says about its argument by returning. -/
def predicate : Rule :=
  let subject := word "this" <|> anyName
  oneOf [
    form "asserts" (word "asserts" ++ subject ++ word "is" ++ type),
    form "asserts" (word "asserts" ++ subject ++ notAhead (sign ".")),
    form "type_predicate" (subject ++ word "is" ++ type)]

def annotation : Rule := form "type_annotation" (sign ":" ++ type)

def resultAnnotation : Rule := form "type_annotation" (sign ":" ++ (predicate <|> type))

/-- The parameters and the result of a function. -/
def signature : Rule :=
  (typed ++ opt (named .typeParameters) ++ named .parameters ++ opt resultAnnotation) <|>
    (require (.dialect [.javascript]) ++ named .parameters)

def parameters : Rule :=
  let start := oneOf [anyName, sign "\x7b", sign "["]
  let modifiers :=
    opt (oneWord ["public", "private", "protected"] ++ ahead start) ++
    opt (word "override" ++ ahead start) ++ opt (word "readonly" ++ ahead start)
  let one := form "required_parameter" (
    many decorator ++ opt (typed ++ modifiers) ++
    ((typed ++ word "this") <|> pattern) ++ opt (typed ++ sign "?") ++ opt (typed ++ annotation) ++
    opt initializer)
  form "formal_parameters" (parens (listOf one))

-- ============================================================== members

/-- The key of a member in brackets, and what it maps to. -/
def indexSignature : Rule :=
  let signed := fun (r : Rule) => opt (sign "-" <|> sign "+") ++ r
  let key := anyName ++ ((sign ":" ++ type) <|>
    (word "in" ++ type ++ opt (word "as" ++ type)))
  form "index_signature" (
    opt (signed (word "readonly")) ++ brackets key ++
    opt (signed (sign "?")) ++ annotation)

def typeMember : Rule :=
  let modifiers :=
    opt accessibility ++ opt (modifier ["static"]) ++ opt (modifier ["override"]) ++
    opt (modifier ["readonly"])
  oneOf [
    indexSignature,
    form "construct_signature" (opt (word "abstract") ++ word "new" ++ opt (named .typeParameters) ++
      named .parameters ++ opt resultAnnotation),
    form "call_signature" signature,
    form "method_signature" (
      modifiers ++ opt (modifier ["async"]) ++ opt (modifier ["get", "set"] <|> sign "*") ++
      propertyName ++ opt (sign "?") ++ signature),
    form "property_signature" (modifiers ++ propertyName ++ opt (sign "?") ++ opt annotation)]

/-- Members between commas, semicolons or line ends. -/
def typeMembers : Rule :=
  let separator := comma <|> stop .other
  opt (comma <|> sign ";") ++ opt (sepBy1 typeMember separator ++ opt separator)

def objectType : Rule :=
  form "object_type" (oneOf [
    sign "\x7b|" ++ bracketed false typeMembers ++ sign "|\x7d",
    body typeMembers])

-- ============================================================= operands

def tupleType : Rule :=
  let one := oneOf [
    form "required_parameter" (anyName ++ opt (sign "?") ++ annotation),
    form "rest_type" (operator "..." ++ anyName ++ annotation),
    form "rest_type" (operator "..." ++ type),
    type ++ opt (sign "?")]
  form "tuple_type" (brackets (listOf one))

/-- The value whose type is meant. -/
def typeQuery : Rule :=
  let step := oneOf [
    form "member_expression" ((sign "." <|> sign "?.") ++ memberName),
    form "subscript_expression" (
      require .sameLine ++ brackets (number <|> string <|> oneWord ["number", "string"])),
    form "call_expression" arguments,
    form "instantiation_expression" (named .typeArguments)]
  let start := oneOf [word "this", word "import", anyName]
  form "type_query" (word "typeof" ++ grow start step)

/-- A type in a module that is named where it is used. -/
def importedType : Rule :=
  let step := form "nested_type_identifier" (sign "." ++ memberName)
  let call := form "call_expression" (as "function" (word "import") ++ arguments)
  grow call step ++ opt (named .typeArguments)

def typeName : Rule :=
  let first := leaf "type_identifier" (.name [
    "typeof", "keyof", "new", "readonly", "infer", "unique", "import", "true", "false", "null",
    "this"])
  let path := grow first (form "nested_type_identifier" (sign "." ++ anyName))
  grow path (form "generic_type" (named .typeArguments))

def templateType : Rule :=
  let part := form "template_type" (
    nextSign "$\x7b" ++ bracketed true type ++ sign "\x7d")
  form "template_literal_type" (
    sign "\x60" ++ many (token true (.other "string_fragment") true .templateText <|> part) ++
    nextSign "\x60")

def literalType : Rule :=
  form "literal_type" (oneOf [
    (opt (sign "-" <|> sign "+") ++ number), string, oneWord ["true", "false", "null"]])

/-- A type that brackets can follow. -/
def primaryType : Rule := oneOf [
  form "parenthesized_type" (parens type),
  objectType,
  tupleType,
  templateType,
  literalType,
  typeQuery,
  importedType,
  form "predefined_type" (word "unique" ++ word "symbol"),
  leaf "this_type" (.word "this"),
  form "flow_maybe_type" (sign "?" ++ named .typeOperand),
  leaf "existential_type" (.sign "*"),
  typeName]

/-- A type that `|` and `&` can follow. -/
def typeOperand : Rule :=
  let index := require .sameLine ++ brackets (opt type)
  oneOf [
    form "union_type" ((sign "|" <|> sign "&") ++ named .typeOperand),
    form "function_type" (
      opt (named .typeParameters) ++ named .parameters ++ operator "=>" ++ (predicate <|> type)),
    form "constructor_type" (
      opt (word "abstract") ++ word "new" ++ opt (named .typeParameters) ++ named .parameters ++
      operator "=>" ++ type),
    form "index_type_query" (word "keyof" ++ named .typeOperand),
    form "readonly_type" (word "readonly" ++ named .typeOperand),
    form "infer_type" (word "infer" ++ anyName ++ opt (word "extends" ++ named .typeOperand)),
    grow primaryType (form "array_type" index)]

/-- Any type. -/
def wholeType : Rule :=
  grow (named .typeOperand) (oneOf [
    form "union_type" (sign "|" ++ notAhead (nextSign "\x7d") ++ named .typeOperand),
    form "intersection_type" (sign "&" ++ named .typeOperand),
    form "conditional_type" (
      require .sameLine ++ word "extends" ++ type ++ sign "?" ++ type ++ sign ":" ++ type)])

end ModuleAtlas.Grammar.Rule
