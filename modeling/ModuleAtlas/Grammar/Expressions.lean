/-
Expressions.

Precedence decides which tree is made, and not whether a text fits. The
trees here group operators from left to right, since nothing asks for
more.

An assignment, a function or a `yield` can be an operand without
parentheses, and takes in all that follows.
-/
import ModuleAtlas.Grammar.Patterns

namespace ModuleAtlas.Grammar.Rule

-- ============================================================= literals

/-- The literals and their parts in braces. -/
def template : Rule :=
  let part := form "template_substitution" (
    nextSign "$\x7b" ++ bracketed true expressions ++ sign "\x7d")
  form "template_string" (
    sign "\x60" ++ many (token true (.other "string_fragment") true .templateText <|> part) ++
    nextSign "\x60")

def regex : Rule :=
  form "regex" (leaf "regex_pattern" .regex ++
    opt (token true (.other "regex_flags") true .regexFlags))

/-- The modifiers, the name and the signature of a method. -/
def methodHead : Rule :=
  opt (typed ++ opt accessibility ++ opt (modifier ["static"]) ++ opt (modifier ["override"]) ++
    opt (modifier ["readonly"])) ++
  opt (modifier ["static"]) ++ opt (modifier ["async"]) ++
  opt (modifier ["get", "set"] <|> operator "*") ++
  as "name" propertyName ++ opt (typed ++ sign "?") ++ signature

def object : Rule :=
  let part := oneOf [
    spread,
    form "method_definition" (methodHead ++ as "body" block),
    form "pair" (as "key" propertyName ++ sign ":" ++ as "value" expression),
    leaf "shorthand_property_identifier" (.name [])]
  form "object" (braces (sparseListOf part))

def array : Rule := form "array" (brackets (sparseListOf (spread <|> expression)))

-- ============================================================ functions

def isAsync : Rule := word "async"

/-- An object that could be taken for a block; the words that begin a
statement are no names of its first member. -/
def blockLike : Rule := sign "\x7b" ++ oneWord statementWords

/-- A function that is written as parameters, an arrow and a value. In
the first branch of a condition one with a result type must not take the
only colon there is. -/
def arrow : Rule :=
  let value := operator "=>" ++ as "body" (block <|> (notAhead blockLike ++ expression))
  let annotated := typed ++ resultAnnotation ++ value ++ (require .notBranching <|> ahead (sign ":"))
  let function := (identifier ++ value) <|>
    (opt (typed ++ named .typeParameters) ++ named .parameters ++ (annotated <|> value))
  form "arrow_function" ((isAsync ++ function) <|> function)

/-- A function with a body in braces; the name may be missing. -/
def function : Rule :=
  form "function_expression" (
    opt isAsync ++ word "function" ++ opt (operator "*") ++ opt (as "name" anyName) ++ signature ++
    as "body" block)

def className : Rule := as "name" (leaf "type_identifier" (.name ["extends", "implements"]))

/-- What a class inherits from. -/
def heritage : Rule :=
  let parent := as "value" operand ++ opt (typed ++ named .typeArguments)
  let parents := form "extends_clause" (word "extends" ++ sepBy1 parent comma)
  let interfaces := form "implements_clause" (word "implements" ++ sepBy1 type comma)
  form "class_heritage" ((parents ++ opt (typed ++ interfaces)) <|> (typed ++ interfaces))

/-- What a class has behind its name. -/
def classRest : Rule :=
  opt (typed ++ named .typeParameters) ++ opt heritage ++ as "body" (named .classBody)

def classValue : Rule :=
  form "class" (many decorator ++ word "class" ++ opt className ++ classRest)

-- ================================================================ steps

def member : Rule :=
  form "member_expression" ((operator "." <|> operator "?.") ++ as "property" memberName)

def subscript : Rule :=
  form "subscript_expression" (opt (operator "?.") ++ as "index" (brackets expressions))

def tagged : Rule := form "call_expression" (as "arguments" (named .template))

def call : Rule :=
  form "call_expression" (
    opt (operator "?.") ++
    ((typed ++ named .typeArguments ++ (arguments <|> as "arguments" (named .template))) <|>
      arguments))

/-- An operand with types for its parameters and no arguments: what
follows must not be able to be one. -/
def instantiation : Rule :=
  let operandStart := oneOf [
    anyName, number, string, oneOf (["(", "[", "\x7b", "\x60", "/", "+", "-", "!", "~", "@", "<"].map sign)]
  form "instantiation_expression" (typed ++ named .typeArguments ++
    notAhead (require .sameLine ++ operandStart))

def nonNull : Rule := form "non_null_expression" (typed ++ require .sameLine ++ operator "!")

def update : Rule :=
  form "update_expression" (require .sameLine ++ (operator "++" <|> operator "--"))

/-- What a value can be assigned to, as a node that has been read. -/
def assignable : List Syntax.Kind := [
  .identifier, .other "member_expression", .other "subscript_expression",
  .other "parenthesized_expression", .other "non_null_expression"]

def assignment : Rule :=
  let augmented := oneOf (["+=", "-=", "*=", "/=", "%=", "^=", "&=", "|=", ">>=", ">>>=", "<<=",
    "**=", "&&=", "||=", "??="].map operator)
  form "assignment_expression" (
    require (.grown assignable) ++ (operator "=" <|> augmented) ++ as "right" expression)

-- ============================================================= operands

/-- What `new` makes an instance of; the first arguments are its own. -/
def creation : Rule :=
  let start := oneOf [
    inParentheses, function, classValue, named .object, array, named .template,
    form "meta_property" (word "import" ++ ahead (operator ".")),
    form "new_expression" (ahead (word "new") ++ operand),
    leaf "this" (.word "this"), leaf "super" (.word "super"), identifier]
  let made := grow start (oneOf [member, subscript, nonNull, tagged])
  form "new_expression" (
    word "new" ++ made ++ opt (typed ++ named .typeArguments) ++ opt arguments)

/-- A pattern to which a value is assigned. -/
def destructuringAssignment : Rule :=
  form "assignment_expression" (
    as "left" destructuring ++ operator "=" ++ as "right" expression)

/-- A name for a value that is released with its block. -/
def managedName : Rule :=
  form "assignment_expression" (
    word "using" ++ require .sameLine ++ as "left" anyName ++ operator "=" ++ as "right" expression)

/-- An operand without what may follow it. -/
def primary : Rule := oneOf [
  arrow,
  form "type_assertion" (
    require (.dialect [.typescript]) ++ named .typeArguments ++ operand),
  function,
  classValue,
  inParentheses,
  form "meta_property" (word "new" ++ operator "." ++ word "target"),
  creation,
  word "import" ++ ahead (sign "(" <|> operator "."),
  leaf "this" (.word "this"), leaf "super" (.word "super"), leaf "null" (.word "null"),
  leaf "true" (.word "true"), leaf "false" (.word "false"),
  number, string, regex, named .template,
  destructuringAssignment,
  named .object,
  array,
  withMarkup ++ named .markup,
  privateName ++ ahead (word "in"),
  typed ++ form "internal_module" (word "namespace" ++ anyName ++ block),
  managedName,
  identifier]

def wholeOperand : Rule := oneOf [
  form "unary_expression" (
    oneOf (["!", "~", "-", "+"].map operator ++ ["typeof", "void", "delete"].map word) ++
    as "argument" operand),
  form "update_expression" ((operator "++" <|> operator "--") ++ as "argument" operand),
  form "await_expression" (word "await" ++ operand),
  form "yield_expression" (
    word "yield" ++ opt ((operator "*" ++ expression) <|> (require .sameLine ++ expression))),
  grow primary (oneOf [member, call, subscript, tagged, nonNull, update, assignment, instantiation])]

-- ========================================================== expressions

/-- The operators between two operands. -/
def infixOperators : List String := [
  "&&", "||", "??", "|", "^", "&", "==", "===", "!=", "!==", "<", "<=", ">", ">=", "<<", ">>", ">>>",
  "+", "-", "*", "/", "%", "**"]

def binary : Rule :=
  form "binary_expression" (
    (oneOf (infixOperators.map operator) <|> oneWord ["instanceof", "in"]) ++ as "right" operand)

/-- Both branches of a condition. -/
def condition : Rule :=
  form "ternary_expression" (
    token false (.other "?") false .question ++ as "consequence" (branching expression) ++
    sign ":" ++ as "alternative" expression)

def cast : Rule :=
  let target := word "const" <|> type
  oneOf [
    form "as_expression" (word "as" ++ target),
    form "satisfies_expression" (word "satisfies" ++ type)]

def wholeExpression : Rule :=
  grow operand (oneOf [binary, condition, typed ++ require .sameLine ++ cast])

end ModuleAtlas.Grammar.Rule
