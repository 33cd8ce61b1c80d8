/-
The bodies of classes.

A member is a method with a body, the signature of one without, a field,
or a block of statements. A member without a body ends as a statement
does.
-/
import ModuleAtlas.Grammar.Expressions

namespace ModuleAtlas.Grammar.Rule

/-- The words before the name of a member. -/
def memberModifiers : Rule :=
  let each := fun (texts : List String) =>
    (texts.map fun text => (opt (modifier [text]) : Rule)).foldr (· ++ ·) nothing
  opt (typed ++ opt (modifier ["declare"]) ++ opt accessibility ++ opt (modifier ["declare"])) ++
  opt (modifier ["static"]) ++
  opt (typed ++ each ["override", "abstract", "override", "readonly", "abstract", "accessor"])

/-- The end of a member without a body. -/
def memberStop (ending : Ending) : Rule := stop ending <|> (typed ++ comma)

def classMember : Rule :=
  let head := memberModifiers ++ opt (modifier ["async"]) ++
    opt (modifier ["get", "set"] <|> operator "*") ++ as "name" propertyName ++
    opt (typed ++ sign "?") ++ signature
  let fieldHead := memberModifiers ++ as "name" propertyName ++
    opt (typed ++ (sign "?" <|> sign "!")) ++ opt (typed ++ annotation)
  oneOf [
    form "class_static_block" (word "static" ++ block),
    typed ++ indexSignature ++ memberStop .other,
    form "method_definition" (many decorator ++ head ++ as "body" block),
    form "method_signature" (typed ++ many decorator ++ head) ++ memberStop .signature,
    form "field_definition" (many decorator ++ fieldHead ++ initializer) ++ memberStop .expression,
    form "field_definition" (many decorator ++ fieldHead) ++ memberStop .other,
    sign ";"]

def classBody : Rule := form "class_body" (body (many classMember))

end ModuleAtlas.Grammar.Rule
