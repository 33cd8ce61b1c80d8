/-
Names that a statement takes from another module.

# Specifiers

An import or export statement names what it takes in specifiers, each
with an alias or without one (`Takes`). Where the statement can be read to
its end, each specifier is recorded with the import that the statement
makes, under its alias or, if it has none, under its name
(`exists_import_of_takes`).

# In a tree

A tree in which nothing failed was read to its end at every node, and
what was found at a node is found in the tree (`exists_import_of_findings`).
-/
import ModuleAtlas.Proofs.Syntax.Findings

namespace ModuleAtlas.Syntax

open Success

namespace Node

variable {source : Bytes} {n specifier : Node} {value name : String} {newName : Option String}

-- =========================================================== specifiers

/-- The specifier has this name and this alias, if any. -/
structure Names (source : Bytes) (specifier : Node) (name : String) (newName : Option String) :
    Prop where
  name : ∃ c, specifier.child? .name = .ok (some c) ∧ c.text source = name
  newName : ∃ o, specifier.child? .newName = .ok o ∧ o.map (·.text source) = newName

/-- The statement takes `name` from the module `value`, as `newName` if it
says so: an import statement by a specifier in its braces, an export
statement with a source by a specifier of its clause. -/
inductive Takes (source : Bytes) (n : Node) (value name : String) (newName : Option String) : Prop
  | importing {s clause braces specifier : Node} (hn : n.kind = .importStatement)
      (hplain : n.firstOfKind .importRequireClause = none)
      (hs : n.child? .source = .ok (some s)) (hstring : s.kind = .string)
      (hvalue : s.stringValue source = value)
      (hclause : n.firstOfKind .importClause = some clause)
      (hbraces : braces ∈ clause.namedChildren) (hkind : braces.kind = .namedImports)
      (hspecifier : specifier ∈ braces.namedChildren)
      (hspecifierKind : specifier.kind = .importSpecifier)
      (hnames : Names source specifier name newName)
  | exporting {s clause specifier : Node} (hn : n.kind = .exportStatement)
      (hs : n.child? .source = .ok (some s)) (hstring : s.kind = .string)
      (hvalue : s.stringValue source = value)
      (hclause : n.firstOfKind .exportClause = some clause)
      (hspecifier : specifier ∈ clause.namedChildren)
      (hspecifierKind : specifier.kind = .exportSpecifier)
      (hnames : Names source specifier name newName)

/-- A specifier is recorded under its alias, or else under its name. -/
theorem Names.childIn? (h : Names source specifier name newName) :
    ∃ o, childIn? child? specifier .newName .name = .ok o ∧
      o.map (·.text source) = some (newName.getD name) := by
  obtain ⟨⟨c, hc, hname⟩, ⟨o, ho, halias⟩⟩ := h
  unfold Node.childIn?
  rw [ho, ok_bind]
  cases o with
  | none =>
      refine ⟨some c, hc, ?_⟩
      rw [← halias, Option.map_some, hname]
      rfl
  | some d =>
      refine ⟨some d, rfl, ?_⟩
      rw [← halias]
      rfl

theorem Names.mem_specifierNames (h : Names source specifier name newName) {kind : Kind}
    {clause : Node} {names : List String}
    (hnames : specifierNames child? source kind clause = .ok names)
    (hmem : specifier ∈ clause.namedChildren) (hkind : specifier.kind = kind) :
    newName.getD name ∈ names := by
  unfold specifierNames at hnames
  obtain ⟨found, hfound, hrest⟩ := bind_eq_ok_iff.1 hnames
  obtain rfl := Except.ok.inj hrest
  obtain ⟨o, ho, htext⟩ := h.childIn?
  have hspecifier : specifier ∈ clause.namedChildren.filter (·.kind == kind) :=
    List.mem_filter.2 ⟨hmem, beq_iff_eq.2 hkind⟩
  have hrecorded : o ∈ found :=
    (mem_iff_of_mapM_eq_ok hfound).2 ⟨specifier, hspecifier, ho⟩
  exact List.mem_filterMap.2 ⟨o, hrecorded, htext⟩

-- ============================================================== clauses

variable {typeOnly : Bool} {c d : Clause} {child : Node}

/-- No child of a clause takes a name away. -/
theorem Clause.names_add (h : Clause.add child? source typeOnly c child = .ok d) :
    ∀ x ∈ c.names, x ∈ d.names := by
  intro x hx
  unfold Clause.add at h
  dsimp only at h
  split at h
  · obtain rfl := Except.ok.inj h
    exact List.mem_append_left _ hx
  · obtain rfl := Except.ok.inj h
    exact List.mem_append_left _ hx
  · obtain ⟨names, -, hrest⟩ := bind_eq_ok_iff.1 h
    obtain rfl := Except.ok.inj hrest
    exact List.mem_append_left _ hx
  · obtain rfl := Except.ok.inj h
    exact hx

/-- Names in braces are added with what each is recorded under. -/
theorem Clause.mem_names_add (h : Clause.add child? source typeOnly c child = .ok d)
    (hkind : child.kind = .namedImports) (hnames : Names source specifier name newName)
    (hmem : specifier ∈ child.namedChildren) (hspecifier : specifier.kind = .importSpecifier) :
    newName.getD name ∈ d.names := by
  unfold Clause.add at h
  rw [hkind] at h
  obtain ⟨names, hread, hrest⟩ := bind_eq_ok_iff.1 h
  obtain rfl := Except.ok.inj hrest
  exact List.mem_append_right _ (hnames.mem_specifierNames hread hmem hspecifier)

theorem Clause.mem_names_foldlM {children : List Node}
    (h : children.foldlM (Clause.add child? source typeOnly) c = .ok d)
    (hchild : child ∈ children) (hkind : child.kind = .namedImports)
    (hnames : Names source specifier name newName) (hmem : specifier ∈ child.namedChildren)
    (hspecifier : specifier.kind = .importSpecifier) :
    newName.getD name ∈ d.names :=
  of_mem_of_foldlM_eq_ok (P := fun c : Clause => newName.getD name ∈ c.names) h
    (fun _ _ _ _ hadd hc => names_add hadd _ hc) hchild
    fun _ _ hadd => mem_names_add hadd hkind hnames hmem hspecifier

theorem stringValue?_some {s : Node} (hstring : s.kind = .string)
    (hvalue : s.stringValue source = value) : stringValue? source (some s) = some value :=
  (if_pos hstring).trans (congrArg some hvalue)

end Node

-- ========================================================== readings

namespace Reader

/-- A reader comes to one end only. -/
theorem Yields.unique {reader : Reader Unit} {said said' : List Import × List Export}
    (h : reader.Yields (.ok said)) (h' : reader.Yields (.ok said')) : said = said' := by
  have hread := (h .nothing).symm.trans (h' .nothing)
  obtain ⟨himports, hexports, -⟩ := Findings.mk.inj (Prod.mk.inj hread).2
  exact Prod.ext himports hexports

/-- A reader that came to its end had its question answered. -/
theorem Yields.exists_answer {α : Type} {question : Except String α} {rest : α → Reader Unit}
    {said : List Import × List Export} (h : Yields (liftM question >>= rest) (.ok said)) :
    ∃ answer, question = .ok answer ∧ (rest answer).Yields (.ok said) := by
  cases question with
  | error text =>
      have hread := h .nothing
      cases hread
  | ok answer => exact ⟨answer, rfl, h⟩

end Reader

namespace Visit

variable {source : Bytes} {v : Visit} {value name : String} {newName : Option String}

/-- Where a statement is read to its end, each name that it takes is
recorded with the import of the module that it is taken from. -/
theorem exists_import_of_takes {imports : List Import} {exports : List Export}
    (hread : (v.reader Node.child? source).Yields (.ok (imports, exports)))
    (htakes : Node.Takes source v.node value name newName) :
    ∃ i ∈ imports, i.source = value ∧ newName.getD name ∈ i.specifiers := by
  unfold reader at hread
  cases htakes with
  | importing hn hplain hs hstring hvalue hclause hbraces hkind hspecifier hspecifierKind hnames =>
      rw [hn] at hread
      obtain ⟨o, ho, hadd⟩ := hread.exists_answer
      have hall := (Reader.yields_addImports _).unique hadd
      unfold Node.importOf? at ho
      rw [hplain, hs, ok_bind, Node.stringValue?_some hstring hvalue, hclause] at ho
      obtain ⟨c, hc, hrest⟩ := bind_eq_ok_iff.1 ho
      obtain rfl := Except.ok.inj hrest
      obtain rfl := (Prod.mk.inj hall).1
      exact ⟨_, List.mem_singleton_self _, rfl,
        Node.Clause.mem_names_foldlM hc hbraces hkind hnames hspecifier hspecifierKind⟩
  | exporting hn hs hstring hvalue hclause hspecifier hspecifierKind hnames =>
      rw [hn] at hread
      unfold Node.readExport at hread
      obtain ⟨from_, hfrom, hread⟩ := hread.exists_answer
      obtain rfl := Except.ok.inj (hs.symm.trans hfrom)
      dsimp only at hread
      rw [Node.stringValue?_some hstring hvalue, hclause] at hread
      obtain ⟨names, hrecorded, hread⟩ := hread.exists_answer
      have hall := hread.unique <|
        (Reader.yields_addExports _).andThen (Reader.yields_addImports _)
      obtain rfl := (Prod.mk.inj hall).1
      exact ⟨_, List.mem_singleton_self _, rfl,
        hnames.mem_specifierNames hrecorded hspecifier hspecifierKind⟩

-- ============================================================ all nodes

variable {ask : Accessor} {visits : List Visit}

/-- What is found at some nodes is what is found at each, in order. -/
theorem foldl_look (found : Findings) :
    visits.foldl (look ask source) found = found ++
      ⟨visits.flatMap fun v => (v.alone ask source).imports,
        visits.flatMap fun v => (v.alone ask source).exports,
        visits.flatMap fun v => (v.alone ask source).faults⟩ := by
  induction visits generalizing found with
  | nil => exact (Findings.append_nothing found).symm
  | cons v visits ih =>
      rw [List.foldl_cons, ih, look_eq_append, Findings.append_assoc, Findings.append_eq (v.alone ..)]
      rfl

end Visit

namespace Node

/-- The nodes of a tree in the order of the text, each with its parent. -/
def visits (root : Node) : List Visit :=
  root.addresses.filterMap (Visit.ofRoot root).at?

theorem exists_visit {root n : Node} {a : Address} (h : root.sub? a = some n) :
    ∃ v ∈ root.visits, v.node = n := by
  have hnode := Visit.map_node_at? (Visit.ofRoot root) a
  rw [show (Visit.ofRoot root).node = root from rfl, h] at hnode
  obtain ⟨v, hv, rfl⟩ := Option.map_eq_some_iff.1 hnode
  exact ⟨v, List.mem_filterMap.2 ⟨a, mem_addresses_iff.2 ⟨_, h⟩, hv⟩, rfl⟩

/-- What is found in a tree is what is found at its nodes, in order. -/
theorem findings_eq_flatMap (ask : Accessor) (source : Bytes) (root : Node) :
    root.findings ask source =
      ⟨root.visits.flatMap fun v => (v.alone ask source).imports,
        root.visits.flatMap fun v => (v.alone ask source).exports,
        root.visits.flatMap fun v => (v.alone ask source).faults⟩ := by
  unfold findings
  rw [walk_root, tour_eq_filterMap_route]
  exact Visit.foldl_look .nothing

/-- Where nothing failed in a tree, each name that a statement takes is
recorded with an import of the module that it is taken from. -/
theorem exists_import_of_findings {source : Bytes} {root n : Node} {a : Address}
    {value name : String} {newName : Option String}
    (hfaults : (root.findings child? source).faults = []) (hn : root.sub? a = some n)
    (htakes : Takes source n value name newName) :
    ∃ i ∈ (root.findings child? source).imports,
      i.source = value ∧ newName.getD name ∈ i.specifiers := by
  obtain ⟨v, hv, rfl⟩ := exists_visit hn
  rw [findings_eq_flatMap] at hfaults ⊢
  have hnone : (v.alone child? source).faults = [] := List.flatMap_eq_nil_iff.1 hfaults v hv
  obtain ⟨o, ho, -⟩ := v.exists_yields_reader (covers_all child?) trivial fun _ _ => trivial
  cases o with
  | error text =>
      unfold Visit.alone at hnone
      rw [Visit.look_of_yields_error ho] at hnone
      cases hnone
  | ok said =>
      obtain ⟨i, hi, hrecorded⟩ := Visit.exists_import_of_takes ho htakes
      refine ⟨i, List.mem_flatMap.2 ⟨v, hv, ?_⟩, hrecorded⟩
      unfold Visit.alone
      rw [Visit.look_of_yields_ok ho]
      exact hi

end Node

end ModuleAtlas.Syntax
