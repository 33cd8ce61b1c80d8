/-
Patterns: what a declaration binds, and what a value can be assigned to.

A pattern is a name, or a list of patterns for the parts of a value. In
an assignment a member of something stands for a name as well.
-/
import ModuleAtlas.Grammar.Types

namespace ModuleAtlas.Grammar.Rule

/-- A name or a member that can be reached from it. -/
def place : Rule :=
  grow identifier (oneOf [
    form "member_expression" (operator "." ++ memberName),
    form "subscript_expression" (brackets expressions),
    form "non_null_expression" (typed ++ operator "!")])

def restPattern : Rule := form "rest_pattern" (operator "..." ++ pattern)

/-- A pattern, maybe with the value it takes where there is none. -/
def withDefault (kind : String) (r : Rule) : Rule :=
  grow r (require (.grown [.identifier, .shorthandPattern, .objectPattern, .other "array_pattern",
    .other "member_expression", .other "subscript_expression", .other "non_null_expression"]) ++
    form kind (operator "=" ++ as "right" expression))

def objectPattern : Rule :=
  let shorthand := leaf "shorthand_property_identifier_pattern" (.name [])
  let part := oneOf [
    form "pair_pattern" (as "key" propertyName ++ sign ":" ++
      as "value" (withDefault "assignment_pattern" pattern)),
    restPattern,
    withDefault "object_assignment_pattern" shorthand]
  form "object_pattern" (braces (sparseListOf part))

def arrayPattern : Rule :=
  form "array_pattern" (brackets (sparseListOf (withDefault "assignment_pattern" pattern)))

/-- A pattern for the parts of a value. -/
def destructuring : Rule := objectPattern <|> arrayPattern

def wholePattern : Rule := oneOf [restPattern, destructuring, place]

/-- What a declaration binds. -/
def binding : Rule := destructuring <|> anyName

/-- A name or a pattern, with its type and value. -/
def declarator : Rule :=
  form "variable_declarator" (
    as "name" binding ++ opt (typed ++ opt (sign "!") ++ annotation) ++ opt initializer)

end ModuleAtlas.Grammar.Rule
