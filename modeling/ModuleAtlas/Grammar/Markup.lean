/-
Elements of markup, which can stand where an expression can.

Between tags every character counts, so no comment can stand there. That
an opening and a closing tag have the same name is not asked for.
-/
import ModuleAtlas.Grammar.Expressions

namespace ModuleAtlas.Grammar.Rule

/-- An expression in braces. -/
def markupExpression : Rule :=
  form "jsx_expression" (braces (opt (spread <|> expressions)))

def tagName : Rule :=
  let part := leaf "identifier" .markupName
  part ++ opt ((sign ":" ++ part) <|>
    (sign "." ++ sepBy1 (leaf "identifier" (.name [])) (sign ".")))

def tagAttribute : Rule :=
  let name := leaf "property_identifier" .markupName
  let value := oneOf [leaf "string" .markupString, markupExpression, named .markup]
  markupExpression <|>
    form "jsx_attribute" (name ++ opt (sign ":" ++ name) ++ opt (sign "=" ++ value))

/-- The name and the attributes in a tag. -/
def tagContent : Rule :=
  tagName ++ opt (typed ++ named .typeArguments) ++ many tagAttribute

def markup : Rule :=
  let child := oneOf [
    token true (.other "jsx_text") true .markupText, named .markup, markupExpression]
  let closing := form "jsx_closing_element" (sign "</" ++ opt tagName ++ sign ">")
  let content := sign ">" ++ many child ++ closing
  form "jsx_element" (sign "<" ++ ((tagContent ++ (sign "/>" <|> content)) <|> content))

end ModuleAtlas.Grammar.Rule
