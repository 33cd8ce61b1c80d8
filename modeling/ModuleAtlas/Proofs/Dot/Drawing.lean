/-
The graph is read back from its drawing.

# Reading a drawing

`read?` reads the part of the drawing language that has no subgraphs: a
statement sets something, gives usual attributes, draws a node or draws
an edge. A node without a label is labelled with its name. Only what
stands in the statements counts, so a name that looks like a statement is
a name.

# What is read

Every line of the drawing is one statement (`draws_nodeLine`,
`draws_edgeLine`), and lines put together are read as their statements
one after the other (`exists_statements`). What they say of nodes and
edges is what the JSON lists, in the same order.
-/
import Mathlib.Data.List.Forall2
import ModuleAtlas.Archive
import ModuleAtlas.Proofs.Dot.Scan
import ModuleAtlas.Proofs.Graph.Export

namespace ModuleAtlas.Dot

-- =========================================================== statements

inductive Statement where
  | setting (key value : String)
  | usual (kind : String) (attributes : List (String × String))
  | node (path : String) (attributes : List (String × String))
  | edge (source target : String) (attributes : List (String × String))

/-- What a word or a name says. -/
def Token.text? : Token → Option String
  | .name text => some text
  | .word text => some text
  | _ => none

/-- Attributes up to the bracket that ends them. -/
def attributes? : List Token → Option (List (String × String) × List Token)
  | .mark ']' :: rest => some ([], rest)
  | .word key :: .mark '=' :: value :: .mark ',' :: rest => do
    let text ← value.text?
    let (attributes, rest) ← attributes? rest
    return ((key, text) :: attributes, rest)
  | .word key :: .mark '=' :: value :: .mark ']' :: rest => do
    let text ← value.text?
    return ([(key, text)], rest)
  | _ => none

/-- Attributes and the end of a statement. -/
def ending? (tokens : List Token) : Option (List (String × String) × List Token) :=
  match tokens with
  | .mark ';' :: rest => some ([], rest)
  | .mark '[' :: rest =>
    match attributes? rest with
    | some (attributes, .mark ';' :: rest) => some (attributes, rest)
    | _ => none
  | _ => none

def statement? (tokens : List Token) : Option (Statement × List Token) :=
  match tokens with
  | .word key :: .mark '=' :: value :: .mark ';' :: rest =>
    value.text?.map fun text => (.setting key text, rest)
  | .word kind :: rest =>
    (ending? rest).map fun (attributes, rest) => (.usual kind attributes, rest)
  | .name source :: .arrow :: .name target :: rest =>
    (ending? rest).map fun (attributes, rest) => (.edge source target attributes, rest)
  | .name path :: rest =>
    (ending? rest).map fun (attributes, rest) => (.node path attributes, rest)
  | _ => none

/-- Statements up to the brace that ends them. -/
def statements? : (fuel : Nat) → List Token → Option (List Statement)
  | 0, _ => none
  | _ + 1, [.mark '\x7d'] => some []
  | fuel + 1, tokens =>
    match statement? tokens with
    | some (statement, rest) => (statements? fuel rest).map (statement :: ·)
    | none => none

/-- The statements of a drawing. Each takes a token at least. -/
def digraph? (text : String) : Option (List Statement) :=
  match tokens? text with
  | some (.word "digraph" :: .word _ :: .mark '\x7b' :: rest) =>
    statements? (rest.length + 1) rest
  | _ => none

-- ============================================================== drawing

/-- What a drawing shows: nodes with their labels, edges with their ends,
and which of them are red. -/
structure Drawing where
  nodes : List (String × String × Bool)
  edges : List (String × String × Bool)

def Statement.node? : Statement → Option (String × String × Bool)
  | .node path attributes => some (path, (attributes.lookup "label").getD path,
      attributes.lookup "fillcolor" == some "red" && attributes.lookup "style" == some "filled")
  | _ => none

def Statement.edge? : Statement → Option (String × String × Bool)
  | .edge source target attributes =>
    some (source, target, attributes.lookup "color" == some "red")
  | _ => none

def read? (text : String) : Option Drawing :=
  (digraph? text).map fun statements =>
    { nodes := statements.filterMap Statement.node?
      edges := statements.filterMap Statement.edge? }

-- ================================================================ lines

/-- The line is scanned to the tokens of this statement. -/
def Draws (line : String) (statement : Statement) : Prop :=
  ∃ tokens, Scans .between line.toList tokens .between ∧
    ∀ rest, statement? (tokens ++ rest) = some (statement, rest)

theorem draws_rankdir : Draws "  rankdir=LR;" (.setting "rankdir" "LR") :=
  ⟨[.word "rankdir", .mark '=', .word "LR", .mark ';'], rfl, fun _ => rfl⟩

theorem draws_usual : Draws "  node [shape=box];" (.usual "node" [("shape", "box")]) :=
  ⟨[.word "node", .mark '[', .word "shape", .mark '=', .word "box", .mark ']', .mark ';'],
    rfl, fun _ => rfl⟩

/-- The attributes of a node. -/
def nodeAttributes (path : String) (red : Bool) : List (String × String) :=
  ("label", label path) :: if red then [("fillcolor", "red"), ("style", "filled")] else []

def edgeAttributes (red : Bool) : List (String × String) :=
  if red then [("color", "red")] else []

theorem toList_nodeLine (path : String) (red : Bool) :
    (nodeLine path red).toList =
      "  ".toList ++ ((quoted path).toList ++ (" [label=".toList ++ (quoted (label path)).toList)) ++
        (if red then ", fillcolor=red, style=filled];" else "];").toList := by
  cases red with
  | false => simp [nodeLine]
  | true => simp [nodeLine]

theorem draws_nodeLine (path : String) (red : Bool) :
    Draws (nodeLine path red) (.node path (nodeAttributes path red)) := by
  have hindent : Scans .between "  ".toList [] .between := rfl
  have hlabel : Scans .between " [label=".toList [.mark '[', .word "label", .mark '='] .between :=
    rfl
  have hfront := hindent.append <| (scans_quoted path).append <|
    hlabel.append (scans_quoted (label path))
  unfold Draws
  rw [toList_nodeLine]
  cases red with
  | false =>
      have hend : Scans .between "];".toList [.mark ']', .mark ';'] .between := rfl
      exact ⟨_, hfront.append hend, fun _ => rfl⟩
  | true =>
      have hend : Scans .between ", fillcolor=red, style=filled];".toList
          [.mark ',', .word "fillcolor", .mark '=', .word "red", .mark ',', .word "style",
            .mark '=', .word "filled", .mark ']', .mark ';'] .between := rfl
      exact ⟨_, hfront.append hend, fun _ => rfl⟩

theorem toList_edgeLine (source target : String) (red : Bool) :
    (edgeLine source target red).toList =
      "  ".toList ++ ((quoted source).toList ++ (" -> ".toList ++ (quoted target).toList)) ++
        (if red then " [color=red];" else ";").toList := by
  cases red with
  | false => simp [edgeLine]
  | true => simp [edgeLine]

theorem draws_edgeLine (source target : String) (red : Bool) :
    Draws (edgeLine source target red) (.edge source target (edgeAttributes red)) := by
  have hindent : Scans .between "  ".toList [] .between := rfl
  have harrow : Scans .between " -> ".toList [.arrow] .between := rfl
  have hfront := hindent.append <| (scans_quoted source).append <|
    harrow.append (scans_quoted target)
  unfold Draws
  rw [toList_edgeLine]
  cases red with
  | false =>
      have hend : Scans .between ";".toList [.mark ';'] .between := rfl
      exact ⟨_, hfront.append hend, fun _ => rfl⟩
  | true =>
      have hend : Scans .between " [color=red];".toList
          [.mark '[', .word "color", .mark '=', .word "red", .mark ']', .mark ';'] .between := rfl
      exact ⟨_, hfront.append hend, fun _ => rfl⟩

-- ===================================================== lines put together

/-- A statement is read before the others. -/
theorem statements?_cons {tokens rest : List Token} {statement : Statement} {fuel : Nat}
    (h : statement? tokens = some (statement, rest)) :
    statements? (fuel + 1) tokens = (statements? fuel rest).map (statement :: ·) := by
  have hbrace : tokens = [.mark '\x7d'] → False := by
    intro htokens
    rw [htokens] at h
    cases h
  rw [statements?]
  · rw [h]
  · exact hbrace

/-- A line before other lines and a brace. -/
theorem Scans.line {line : String} {lines : List String} {front tokens : List Token}
    (hline : Scans .between line.toList front .between)
    (hlines : Scans .between ("\n".intercalate (lines ++ ["\x7d"])).toList tokens .between) :
    Scans .between ("\n".intercalate (line :: lines ++ ["\x7d"])).toList (front ++ tokens)
      .between := by
  have hbreak : Scans .between "\n".toList [] .between := rfl
  obtain ⟨next, after, hnext⟩ := List.exists_cons_of_ne_nil
    (List.append_ne_nil_of_right_ne_nil lines (List.cons_ne_nil "\x7d" []))
  rw [List.cons_append, hnext, String.intercalate_cons_cons, ← hnext, String.toList_append,
    String.toList_append, List.append_assoc]
  exact hline.append (hbreak.append hlines)

/-- Lines, each of which is a statement, and the brace after them are read
as the statements. -/
theorem exists_statements {lines : List String} {statements : List Statement}
    (h : List.Forall₂ Draws lines statements) :
    ∃ tokens, Scans .between ("\n".intercalate (lines ++ ["\x7d"])).toList tokens .between ∧
      ∀ fuel, tokens.length < fuel → statements? fuel tokens = some statements := by
  induction h with
  | nil =>
      refine ⟨[.mark '\x7d'], rfl, ?_⟩
      intro fuel hfuel
      obtain ⟨n, rfl⟩ := Nat.exists_eq_add_one_of_ne_zero (Nat.ne_zero_of_lt hfuel)
      rfl
  | @cons line statement lines statements hline _ ih =>
      obtain ⟨front, hfront, hstatement⟩ := hline
      obtain ⟨tokens, htokens, hread⟩ := ih
      refine ⟨front ++ tokens, hfront.line htokens, ?_⟩
      intro fuel hfuel
      have hpos : 0 < front.length := by
        refine List.length_pos_of_ne_nil fun hnil => ?_
        have hnone := hstatement []
        rw [hnil] at hnone
        cases hnone
      rw [List.length_append] at hfuel
      obtain ⟨n, rfl⟩ := Nat.exists_eq_add_one_of_ne_zero (Nat.ne_zero_of_lt hfuel)
      rw [statements?_cons (hstatement tokens), hread n (by omega)]
      rfl

/-- Lines, each of which is a statement, between the first line of a
drawing and the brace. -/
theorem digraph?_lines {lines : List String} {statements : List Statement}
    (h : List.Forall₂ Draws lines statements) :
    digraph? ("\n".intercalate ("digraph dependencies \x7b" :: lines ++ ["\x7d"])) =
      some statements := by
  obtain ⟨tokens, htokens, hread⟩ := exists_statements h
  have hfirst : Scans .between "digraph dependencies \x7b".toList
      [.word "digraph", .word "dependencies", .mark '\x7b'] .between := rfl
  unfold digraph? tokens?
  rw [hfirst.line htokens]
  exact hread _ (Nat.lt_succ_self _)

-- ============================================================ the graph

variable (g : Graph)

/-- The statements of the drawing. -/
def statementsOf : List Statement :=
  [.setting "rankdir" "LR", .usual "node" [("shape", "box")]] ++
    g.nodes.keys.map (fun path => .node path (nodeAttributes path (g.isRedNode path))) ++
    g.allEdges.map fun e => .edge e.source e.target (edgeAttributes (g.isRedEdge e))

/-- The drawing is read as its statements. -/
theorem digraph?_toDot : digraph? g.toDot = some (statementsOf g) := by
  have hnodes : List.Forall₂ Draws
      (g.nodes.keys.map fun path => nodeLine path (g.isRedNode path))
      (g.nodes.keys.map fun path => .node path (nodeAttributes path (g.isRedNode path))) := by
    rw [List.forall₂_map_left_iff, List.forall₂_map_right_iff, List.forall₂_same]
    exact fun path _ => draws_nodeLine path _
  have hedges : List.Forall₂ Draws
      (g.allEdges.map fun e => edgeLine e.source e.target (g.isRedEdge e))
      (g.allEdges.map fun e => .edge e.source e.target (edgeAttributes (g.isRedEdge e))) := by
    rw [List.forall₂_map_left_iff, List.forall₂_map_right_iff, List.forall₂_same]
    exact fun e _ => draws_edgeLine e.source e.target _
  exact digraph?_lines <| List.Forall₂.cons draws_rankdir <| .cons draws_usual <|
    List.rel_append hnodes hedges

/-- What is kept of items, each of which is made to something kept. -/
theorem filterMap_map_some {α β γ : Type} {f : β → Option γ} {h : α → β} {k : α → γ} (l : List α)
    (hf : ∀ a, f (h a) = some (k a)) : (l.map h).filterMap f = l.map k := by
  rw [List.filterMap_map, show f ∘ h = some ∘ k from funext hf, List.filterMap_eq_map]

theorem filterMap_map_none {α β γ : Type} {f : β → Option γ} {h : α → β} (l : List α)
    (hf : ∀ a, f (h a) = none) : (l.map h).filterMap f = [] := by
  rw [List.filterMap_map, List.filterMap_eq_nil_iff]
  exact fun a _ => hf a

theorem node?_nodeAttributes (path : String) (red : Bool) :
    (Statement.node path (nodeAttributes path red)).node? = some (path, label path, red) := by
  cases red with
  | false => rfl
  | true => rfl

theorem edge?_edgeAttributes (source target : String) (red : Bool) :
    (Statement.edge source target (edgeAttributes red)).edge? = some (source, target, red) := by
  cases red with
  | false => rfl
  | true => rfl

/-- The drawing is read as what it shows. -/
theorem read?_toDot : read? g.toDot = some
    { nodes := g.nodes.keys.map fun path => (path, label path, g.isRedNode path)
      edges := g.allEdges.map fun e => (e.source, e.target, g.isRedEdge e) } := by
  have hnodes : (statementsOf g).filterMap Statement.node? =
      g.nodes.keys.map fun path => (path, label path, g.isRedNode path) := by
    rw [statementsOf, List.filterMap_append, List.filterMap_append,
      filterMap_map_some _ fun path => node?_nodeAttributes path (g.isRedNode path),
      filterMap_map_none _ fun _ => rfl, List.append_nil]
    rfl
  have hedges : (statementsOf g).filterMap Statement.edge? =
      g.allEdges.map fun e => (e.source, e.target, g.isRedEdge e) := by
    rw [statementsOf, List.filterMap_append, List.filterMap_append,
      filterMap_map_some _ fun e => edge?_edgeAttributes e.source e.target (g.isRedEdge e),
      filterMap_map_none _ fun _ => rfl, List.append_nil]
    rfl
  rw [read?, digraph?_toDot, Option.map_some, hnodes, hedges]

theorem isRedNode_eq (path : String) :
    g.isRedNode path = decide (∃ c ∈ g.cycles, path ∈ c.nodes) := by
  rw [Graph.isRedNode, Bool.eq_iff_iff, List.any_eq_true, decide_eq_true_iff]
  simp only [List.contains_iff_mem]

theorem isRedEdge_eq (e : Edge) :
    g.isRedEdge e = decide (∃ c ∈ g.cycles, ∃ d ∈ c.edges,
      d.source = e.source ∧ d.target = e.target) := by
  rw [Graph.isRedEdge, Bool.eq_iff_iff, List.any_eq_true, decide_eq_true_iff]
  simp only [List.any_eq_true, Bool.and_eq_true, beq_iff_eq]

/-- The drawing is read as one node for each node of the graph and one
edge for each edge, in the order in which the JSON lists them, whatever
their names hold; so no other nodes or edges have this drawing. Red are
the nodes of the reported cycles, and the edges that join what an edge of
a reported cycle joins. -/
theorem drawing_reads_back :
    read? g.toDot = some {
      nodes := g.nodes.keys.map fun path =>
        (path, label path, decide (∃ c ∈ g.cycles, path ∈ c.nodes))
      edges := g.allEdges.map fun e =>
        (e.source, e.target, decide (∃ c ∈ g.cycles, ∃ d ∈ c.edges,
          d.source = e.source ∧ d.target = e.target)) } ∧
    (∀ g' : Graph, g'.toDot = g.toDot → g'.nodes.keys = g.nodes.keys ∧
      (g'.allEdges.map fun e => (e.source, e.target)) =
        g.allEdges.map fun e => (e.source, e.target)) ∧
    ∀ layout, ∃ nodes edges cycles,
      Json.read? (g.toJson.render layout) = some (.obj
        [("nodes", .arr nodes), ("edges", .arr edges), ("cycles", cycles)]) ∧
      nodes.map (Archive.member? · "path") = g.nodes.keys.map (some <| .str ·) ∧
      edges.map (fun e => (Archive.member? e "from", Archive.member? e "to")) =
        g.allEdges.map fun e => (some (.str e.source), some (.str e.target)) := by
  refine ⟨?_, ?_, ?_⟩
  · rw [read?_toDot]
    simp only [isRedNode_eq, isRedEdge_eq]
  · intro g' hdot
    have hread := read?_toDot g'
    rw [hdot, read?_toDot g] at hread
    obtain ⟨hnodes, hedges⟩ := Drawing.mk.inj (Option.some.inj hread)
    have hpaths := congrArg (List.map Prod.fst) hnodes
    have hpairs := congrArg (List.map fun e => (e.1, e.2.1)) hedges
    rw [List.map_map, List.map_map] at hpaths hpairs
    have hid : ∀ red : String → Bool,
        (Prod.fst ∘ fun path : String => (path, label path, red path)) = id := fun _ => rfl
    rw [hid, hid, List.map_id, List.map_id] at hpaths
    exact ⟨hpaths.symm, hpairs.symm⟩
  · intro layout
    refine ⟨_, _, _, g.whole_toJson.read?_render layout, ?_, ?_⟩
    · rw [OrderedMap.keys, List.map_map, List.map_map]
      rfl
    · rw [List.map_map]
      rfl

end ModuleAtlas.Dot
