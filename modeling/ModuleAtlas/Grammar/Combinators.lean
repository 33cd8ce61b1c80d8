/-
Ways to make rules from rules.

`++` puts one rule behind another and `<|>` tries the second one where
the first does not fit.
-/
import ModuleAtlas.Grammar.Rule

namespace ModuleAtlas.Grammar.Rule

open Syntax

instance : Append Rule := ⟨seq⟩

instance : OrElse Rule := ⟨fun a b => choice a (b ())⟩

/-- The rule, or nothing. -/
def opt (r : Rule) : Rule := choice r nothing

/-- The items with the separator between them, at least one. -/
def sepBy1 (r separator : Rule) : Rule := r ++ many (separator ++ r)

/-- The first rule of the list that fits. -/
def oneOf : List Rule → Rule
  | [] => notAhead nothing
  | [r] => r
  | r :: rs => choice r (oneOf rs)

/-- A bare sign, whatever follows. -/
def sign (text : String) : Rule := token false (Kind.ofName text) false (.sign text)

/-- A sign right behind the last token. -/
def nextSign (text : String) : Rule := token true (Kind.ofName text) false (.sign text)

/-- A sign that is not part of a longer one. -/
def operator (text : String) : Rule := token false (Kind.ofName text) false (.operator text)

/-- A keyword. -/
def word (text : String) : Rule := token false (Kind.ofName text) false (.word text)

/-- One of the keywords. -/
def oneWord (texts : List String) : Rule := oneOf (texts.map word)

/-- A token that makes a node of its own. -/
def leaf (kind : String) (lexeme : Lexeme) : Rule := token false (Kind.ofName kind) true lexeme

/-- A node of this kind. -/
def form (kind : String) (r : Rule) : Rule := node (Kind.ofName kind) r

/-- Puts what is read in a role. -/
def as (name : String) (r : Rule) : Rule := role (Role.ofName name) r

def parens (r : Rule) : Rule := sign "(" ++ bracketed true r ++ sign ")"

def brackets (r : Rule) : Rule := sign "[" ++ bracketed true r ++ sign "]"

/-- Braces that hold a list, in which a line end means nothing. -/
def braces (r : Rule) : Rule := sign "\x7b" ++ bracketed true r ++ sign "\x7d"

/-- Braces that hold statements or members, which line ends may end. -/
def body (r : Rule) : Rule := sign "\x7b" ++ bracketed false r ++ sign "\x7d"

def comma : Rule := sign ","

/-- Items between commas; a comma may stand behind the last one. -/
def listOf (r : Rule) : Rule := opt (sepBy1 r comma ++ opt comma)

/-- Items between commas, each of which may be missing. -/
def sparseListOf (r : Rule) : Rule := opt r ++ many (comma ++ opt r)

/-- The end of a statement. -/
def stop (ending : Ending) : Rule := sign ";" <|> require (.ended ending)

/-- Only in typed dialects. -/
def typed : Rule := require (.dialect [.typescript, .tsx])

/-- Only where there is markup. -/
def withMarkup : Rule := require (.dialect [.tsx, .javascript])

end ModuleAtlas.Grammar.Rule
