/-
Where a text does not fit the grammar.

A marked node is reported once, and what is below it not at all. So the
tree is walked where there are marks, down to the first one on each way,
and what is found is put in the order of places.
-/
import ModuleAtlas.Syntax.Walk
import ModuleAtlas.Text.Blank
import ModuleAtlas.Module

namespace ModuleAtlas.Syntax

namespace Node

/-- The longest piece of text that a fault quotes. -/
def maxQuote : Nat := 40

/-- The fault that a marked node stands for. -/
def fault (source : Bytes) (n : Node) : Fault where
  location := n.location
  message :=
    match n.label.mark with
    | .missing => "Missing '" ++ n.kind.name ++ "'"
    | _ =>
      let near := (Text.firstLine (Text.trim (n.characters source))).take maxQuote
      if near.isEmpty then "Unexpected syntax"
      else "Unexpected syntax near '" ++ String.ofList near ++ "'"

end Node

/-- The first place is not behind the second one. -/
def notBehind (a b : Location) : Bool :=
  a.line < b.line || (a.line == b.line && a.column ≤ b.column)

/-- Records a marked node. -/
def recordMark (source : Bytes) (found : List Fault) (v : Visit) : List Fault :=
  if v.node.label.mark = .sound then found else found ++ [v.node.fault source]

/-- Where there are marks still to be found: below a node without one,
in the children that hold one. -/
def leadsToMark (parent child : Node) : Bool :=
  parent.label.mark == .sound && child.hasMark

/-- The faults of a tree by place, those of one place in tree order. -/
def faults (source : Bytes) (root : Node) : List Fault :=
  if root.hasMark then
    (walk (recordMark source) leadsToMark [.ofRoot root] []).mergeSort fun a b =>
      notBehind a.location b.location
  else []

end ModuleAtlas.Syntax
