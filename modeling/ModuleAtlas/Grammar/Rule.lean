/-
Grammar rules and how they read a text.

# Rules

A rule says which tokens may follow each other and which nodes they
make. Choices are ordered: the first alternative that fits is taken, and
repetition takes as much as it can. Operators and what else may follow
an operand are steps that grow a node: each takes the node so far as the
first child of a new one.

# Comments

What stands between two tokens belongs to neither. The comments there
become nodes beside the tokens; those before the first token of a node
stay outside of it.

# Reading

`Rule.read` reads by a rule what it can from an index on, given how the
named rules read (`ByName`); `Rules.readFrom` ties the knot. Every call
of a named rule counts against a depth that the text bounds, so both
always end.
-/
import ModuleAtlas.Grammar.Ending
import ModuleAtlas.Grammar.Lexeme
import ModuleAtlas.Grammar.Nonterminal

namespace ModuleAtlas.Grammar

open Syntax

-- ========================================================= surroundings

/-- Where a rule is asked to read. Within brackets a line end does not
end a statement. In the first branch of a condition a colon may be the
one that ends the branch. -/
structure Surroundings where
  dialect : Dialect
  bracketed : Bool
  branching : Bool
  /-- The kind of the node that grows here. -/
  grown : Option Kind

/-- A condition on the surroundings and what comes next. -/
inductive Condition where
  | dialect (allowed : List Dialect)
  | notBranching
  | sameLine
  | grown (kinds : List Kind)
  | ended (ending : Ending)
  | atEnd
  deriving Repr, DecidableEq

-- ================================================================ rules

/-- A rule of the grammar. -/
inductive Rule where
  | nothing
  | require (condition : Condition)
  /-- One token. If it is `adjacent`, nothing may stand before it. -/
  | token (adjacent : Bool) (kind : Kind) (isNamed : Bool) (lexeme : Lexeme)
  | seq (first second : Rule)
  | choice (first second : Rule)
  | many (rule : Rule)
  /-- What comes next would fit the rule; it is not read. -/
  | ahead (rule : Rule)
  | notAhead (rule : Rule)
  | node (kind : Kind) (rule : Rule)
  | role (role : Role) (rule : Rule)
  /-- A node, and as many nodes grown around it as the step can make. -/
  | grow (rule step : Rule)
  | bracketed (value : Bool) (rule : Rule)
  | branching (rule : Rule)
  | named (name : Nonterminal)
  deriving Repr

/-- What was read: up to where, and the nodes. -/
structure Match where
  stop : Nat
  nodes : List Syntax.Node

/-- How rules known by their names read. -/
abbrev ByName := Nonterminal → Surroundings → Nat → Option Match

-- ================================================================ nodes

def isComment (n : Syntax.Node) : Bool := n.kind == .other "comment"

/-- Puts a node in a role; a comment has none. -/
def inRole (role : Role) (n : Syntax.Node) : Syntax.Node :=
  if isComment n then n else .node { n.label with role := some role } n.children

/-- Makes one node of the nodes, around all but leading comments. -/
def gather (kind : Kind) (nodes : List Syntax.Node) : List Syntax.Node :=
  match nodes.dropWhile isComment with
  | [] => nodes
  | first :: rest =>
    nodes.takeWhile isComment ++ [.node { first.label with
      kind := kind, role := none, named := true
      stop := ((first :: rest).getLast?.getD first).label.stop } (first :: rest)]

/-- The role of what a node of this kind grew around. -/
def leadRole : Kind → Role
  | .callExpression => .function
  | .assignmentPattern => .left
  | _ => .other "object"

/-- Grows a node by one step: the step's last node takes the grown one
in as its first child, and the comments between them. -/
def absorb (grown : Syntax.Node) (nodes : List Syntax.Node) : Option Syntax.Node :=
  nodes.getLast?.map fun outer =>
    .node { outer.label with start := grown.label.start, place := grown.label.place }
      (inRole (leadRole outer.kind) grown :: (nodes.dropLast ++ outer.children))

/-- Whether a condition holds at an index. -/
def Condition.holds (t : Text) (s : Surroundings) (i : Nat) : Condition → Bool
  | dialect allowed => allowed.contains s.dialect
  | notBranching => !s.branching
  | sameLine => s.bracketed || !t.breaksLine i
  | grown kinds => s.grown.any kinds.contains
  | ended ending => endsStatement s.dialect ending t i
  | atEnd => (t.nextToken i).1 ≥ t.size

-- ============================================================== reading

/-- Reads one token. -/
def readToken (t : Text) (adjacent : Bool) (kind : Kind) (isNamed : Bool) (lexeme : Lexeme)
    (i : Nat) : Option Match :=
  let (start, comments) := if adjacent then (i, []) else t.nextToken i
  (lexeme.end? t start).map fun stop => ⟨stop, comments ++ [t.leaf kind isNamed start stop]⟩

/-- Reads as often as something is read, at most `fuel` times. -/
def readMany (read : Nat → Option Match) : (fuel : Nat) → Nat → Match
  | 0, i => ⟨i, []⟩
  | fuel + 1, i =>
    match read i with
    | none => ⟨i, []⟩
    | some m =>
      if m.stop ≤ i then ⟨i, []⟩
      else
        let rest := readMany read fuel m.stop
        ⟨rest.stop, m.nodes ++ rest.nodes⟩

/-- Grows a node as often as a step can be read, at most `fuel` times. -/
def growWith (step : Kind → Nat → Option Match) :
    (fuel : Nat) → Syntax.Node → Nat → Syntax.Node × Nat
  | 0, n, i => (n, i)
  | fuel + 1, n, i =>
    match step n.kind i with
    | none => (n, i)
    | some m =>
      match absorb n m.nodes with
      | some n => growWith step fuel n m.stop
      | none => (n, i)

/-- Reads by a rule from an index on. -/
def Rule.read (t : Text) (byName : ByName) : Rule → Surroundings → Nat → Option Match
  | nothing, _, i => some ⟨i, []⟩
  | require condition, s, i => if condition.holds t s i then some ⟨i, []⟩ else none
  | token adjacent kind isNamed lexeme, _, i => readToken t adjacent kind isNamed lexeme i
  | seq first second, s, i => do
    let m ← first.read t byName s i
    let k ← second.read t byName s m.stop
    return ⟨k.stop, m.nodes ++ k.nodes⟩
  | choice first second, s, i =>
    match first.read t byName s i with
    | some m => some m
    | none => second.read t byName s i
  | many rule, s, i => some (readMany (rule.read t byName s) (t.size + 1 - i) i)
  | ahead rule, s, i => (rule.read t byName s i).map fun _ => ⟨i, []⟩
  | notAhead rule, s, i =>
    match rule.read t byName s i with
    | some _ => none
    | none => some ⟨i, []⟩
  | node kind rule, s, i => do
    let m ← rule.read t byName s i
    return ⟨m.stop, gather kind m.nodes⟩
  | role r rule, s, i => do
    let m ← rule.read t byName s i
    return ⟨m.stop, m.nodes.map (inRole r)⟩
  | grow rule step, s, i => do
    let m ← rule.read t byName s i
    match m.nodes.getLast? with
    | none => return m
    | some n =>
      let (n, stop) := growWith (fun k => step.read t byName { s with grown := some k })
        (t.size + 1 - m.stop) n m.stop
      return ⟨stop, m.nodes.dropLast ++ [n]⟩
  | bracketed value rule, s, i => rule.read t byName { s with bracketed := value, branching := false } i
  | branching rule, s, i => rule.read t byName { s with branching := true } i
  | named name, s, i => byName name s i

/-- The rules of a grammar by their names. -/
abbrev Rules := Nonterminal → Rule

/-- Reads by the rule of a name, through at most `depth` names at once. -/
def Rules.readFrom (rules : Rules) (t : Text) : (depth : Nat) → ByName
  | 0, _, _, _ => none
  | depth + 1, name, s, i => (rules name).read t (readFrom rules t depth) s i

end ModuleAtlas.Grammar
