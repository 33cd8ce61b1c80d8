/-
The syntax tree of a text.

A text that is not in the language has a tree of one marked node. Where
and how a text leaves the language is not told.
-/
import ModuleAtlas.Grammar.Statements

namespace ModuleAtlas.Grammar

open Syntax

/-- The rules of source texts. -/
def rules : Rules
  | .expression => Rule.wholeExpression
  | .operand => Rule.wholeOperand
  | .pattern => Rule.wholePattern
  | .template => Rule.template
  | .object => Rule.object
  | .markup => Rule.markup
  | .type => Rule.wholeType
  | .typeOperand => Rule.typeOperand
  | .typeParameters => Rule.typeParameters
  | .typeArguments => Rule.typeArguments
  | .parameters => Rule.parameters
  | .classBody => Rule.classBody
  | .statement => Rule.anyStatement
  | .block => Rule.statementBlock
  | .declaration => Rule.anyDeclaration

/-- The number of nonterminals. -/
def nonterminals : Nat := 15

/-- A whole text: its statements, maybe after a line for the system. -/
def program : Rule :=
  let mark := .token true (.other "#!") false (.sign "#!")
  let systemLine := .form "hash_bang_line" (mark ++ .token true (.other "line") false .line)
  .opt systemLine ++ .many .statement ++ .require .atEnd

/-- The root of the tree of a text. -/
def root (t : Text) (mark : Mark) (children : List Syntax.Node) : Syntax.Node :=
  .node {
    kind := .other "program", role := none, named := true, mark := mark
    start := 0, stop := (t.place t.size).offset, place := ⟨0, 0⟩, trouble := none } children

/-- The syntax tree of a text in a dialect. No rule calls itself without
reading a token in between, so the length of the text bounds how deep
the calls are. -/
def parse (dialect : Dialect) (bytes : Bytes) : Syntax.Node :=
  let t := Text.ofBytes bytes
  let byName := rules.readFrom t ((t.size + 1) * nonterminals)
  match program.read t byName ⟨dialect, false, false, none⟩ 0 with
  | some m => root t .sound m.nodes
  | none => root t .error []

end ModuleAtlas.Grammar
