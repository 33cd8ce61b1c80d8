/-
The names of the rules that call each other.
-/

namespace ModuleAtlas.Grammar

/-- A part of a text that the grammar has a name for. -/
inductive Nonterminal where
  | expression
  | operand
  | pattern
  | template
  | object
  | markup
  | type
  | typeOperand
  | typeParameters
  | typeArguments
  | parameters
  | classBody
  | statement
  | block
  | declaration
  deriving Repr, DecidableEq

end ModuleAtlas.Grammar
