/-
The rules for names, literals and lists, which the others are made of.
-/
import ModuleAtlas.Grammar.Combinators

namespace ModuleAtlas.Grammar.Rule

def expression : Rule := named .expression

/-- What an operator can be applied to. -/
def operand : Rule := named .operand

def pattern : Rule := named .pattern

def type : Rule := named .type

def block : Rule := named .block

def statement : Rule := named .statement

def declaration : Rule := named .declaration

-- ================================================================ names

/-- The words that begin an expression and so are no names in one. -/
def expressionWords : List String := [
  "this", "super", "null", "true", "false", "function", "class", "new", "typeof", "void", "delete",
  "await", "yield", "import"]

/-- The words that no statement but their own begins with. -/
def statementWords : List String := [
  "if", "for", "while", "do", "try", "with", "switch", "break", "continue", "return", "throw",
  "debugger", "var", "const", "case", "default", "export"]

/-- Any word as a name. -/
def anyName : Rule := leaf "identifier" (.name [])

/-- A name in an expression. -/
def identifier : Rule := leaf "identifier" (.name expressionWords)

def privateName : Rule := leaf "private_property_identifier" .privateName

def string : Rule := leaf "string" .string

def number : Rule := leaf "number" .number

/-- A name behind a dot. -/
def memberName : Rule := leaf "property_identifier" (.name []) <|> privateName

/-- The name of a property where it is defined. -/
def propertyName : Rule := oneOf [
  memberName, string, number, form "computed_property_name" (brackets expression)]

/-- A word that says something about the member behind it. Where no
name follows, it is a name itself. -/
def modifier (texts : List String) : Rule :=
  oneWord texts ++ ahead (oneOf [memberName, string, number, sign "[", operator "*"])

def accessibility : Rule := modifier ["public", "private", "protected"]

-- ============================================================ sequences

/-- One expression, or several with commas between them. -/
def expressions : Rule := sepBy1 expression comma

def inParentheses : Rule :=
  form "parenthesized_expression" (parens (
    expression ++
    ((typed ++ form "type_annotation" (sign ":" ++ type)) <|> many (comma ++ expression))))

def spread : Rule := form "spread_element" (operator "..." ++ expression)

/-- The arguments of a call. -/
def arguments : Rule :=
  as "arguments" (form "arguments" (parens (sparseListOf (spread <|> expression))))

/-- The value that something starts with. -/
def initializer : Rule := operator "=" ++ as "value" expression

/-- An `@` and what is applied to the thing behind it. -/
def decorator : Rule :=
  let access := form "member_expression" (sign "." ++ memberName)
  let call := form "call_expression" (opt (typed ++ named .typeArguments) ++ arguments)
  form "decorator" (sign "@" ++ (inParentheses <|> grow anyName (access <|> call)))

end ModuleAtlas.Grammar.Rule
