/-
The imports of a tree are what its nodes refer to.

# References

An import statement, an export statement and a call of `require` can
refer to another module, each by a string literal in a place of its own
(`Refers`). Nothing else does, wherever it stands.

# What is read of them

In a clear tree every node can be read to its end. It makes one import if
it refers to something, and none if it does not
(`Visit.Clear.exists_yields`). So the imports of the tree are its
references in the order of the text (`Node.Clear.sources_findings`).
-/
import ModuleAtlas.Proofs.Syntax.Clear
import ModuleAtlas.Proofs.Syntax.Findings

namespace ModuleAtlas.Syntax

open Success

namespace Node

variable {source : Bytes} {n : Node}

-- ============================================================ references

/-- The node refers to the module of this name: an import statement by
its source or, if it has a `require` of its own, by the source of that; an
export statement by its source, whatever it offers from there; a call of
`require` by its first argument. -/
inductive Refers (source : Bytes) (n : Node) : String → Prop
  | importing {s : Node} (hn : n.kind = .importStatement)
      (hplain : n.firstOfKind .importRequireClause = none)
      (hs : n.child? .source = .ok (some s)) (hstring : s.kind = .string) :
      Refers source n (s.stringValue source)
  | importingRequired {clause s : Node} (hn : n.kind = .importStatement)
      (hclause : n.firstOfKind .importRequireClause = some clause)
      (hs : clause.child? .source = .ok (some s)) (hstring : s.kind = .string) :
      Refers source n (s.stringValue source)
  | exporting {s : Node} (hn : n.kind = .exportStatement)
      (hs : n.child? .source = .ok (some s)) (hstring : s.kind = .string) :
      Refers source n (s.stringValue source)
  | requiring {function arguments s : Node} (hn : n.kind = .callExpression)
      (hfunction : n.child? .function = .ok (some function))
      (hidentifier : function.kind = .identifier)
      (hname : function.text source = "require")
      (harguments : n.child? .arguments = .ok (some arguments))
      (hs : arguments.namedChildren.head? = some s)
      (hstring : s.kind = .string) :
      Refers source n (s.stringValue source)

/-- The module that a node refers to, if there is one. -/
def reference? (source : Bytes) (n : Node) : Option String :=
  stringValue? source <|
    match n.kind with
    | .importStatement =>
      match n.firstOfKind .importRequireClause with
      | some clause => clause.inRole .source
      | none => n.inRole .source
    | .exportStatement => n.inRole .source
    | .callExpression =>
      match n.inRole .function with
      | some function =>
        if function.kind = .identifier ∧ function.text source = "require" then
          (n.inRole .arguments).bind (·.namedChildren.head?)
        else none
      | none => none
    | _ => none

theorem stringValue?_eq_some_iff {o : Option Node} {value : String} :
    stringValue? source o = some value ↔
      ∃ s, o = some s ∧ s.kind = .string ∧ s.stringValue source = value := by
  cases o with
  | none => simp [stringValue?]
  | some s => simp [stringValue?]

theorem refers_of_reference? (h : n.Clear) {value : String}
    (hvalue : n.reference? source = some value) : Refers source n value := by
  unfold reference? at hvalue
  obtain ⟨s, hs, hstring, rfl⟩ := stringValue?_eq_some_iff.1 hvalue
  split at hs
  · next hn =>
    split at hs
    · next clause hclause =>
      have hclear := h.of_firstOfKind hclause
      exact .importingRequired hn hclause (hclear.child?_eq_some_iff.2 hs) hstring
    · next hplain =>
      exact .importing hn hplain (h.child?_eq_some_iff.2 hs) hstring
  · next hn => exact .exporting hn (h.child?_eq_some_iff.2 hs) hstring
  · next hn =>
    split at hs
    · next function hfunction =>
      split at hs
      · next hrequire =>
        obtain ⟨arguments, harguments, hs⟩ := Option.bind_eq_some_iff.1 hs
        exact .requiring hn (h.child?_eq_some_iff.2 hfunction) hrequire.1 hrequire.2
          (h.child?_eq_some_iff.2 harguments) hs hstring
      · cases hs
    · cases hs
  · cases hs

theorem reference?_of_refers (h : n.Clear) {value : String}
    (hrefers : Refers source n value) : n.reference? source = some value := by
  unfold reference?
  rw [stringValue?_eq_some_iff]
  cases hrefers with
  | importing hn hplain hs hstring =>
      rw [hn, hplain]
      exact ⟨_, h.child?_eq_some_iff.1 hs, hstring, rfl⟩
  | importingRequired hn hclause hs hstring =>
      have hclear := h.of_firstOfKind hclause
      rw [hn, hclause]
      exact ⟨_, hclear.child?_eq_some_iff.1 hs, hstring, rfl⟩
  | exporting hn hs hstring =>
      rw [hn]
      exact ⟨_, h.child?_eq_some_iff.1 hs, hstring, rfl⟩
  | requiring hn hfunction hidentifier hname harguments hs hstring =>
      rw [hn, h.child?_eq_some_iff.1 hfunction, h.child?_eq_some_iff.1 harguments]
      refine ⟨_, ?_, hstring, rfl⟩
      dsimp only
      rw [if_pos ⟨hidentifier, hname⟩]
      exact hs

/-- In a clear tree, a node refers to what its literal says. -/
theorem reference?_eq_some_iff (h : n.Clear) {value : String} :
    n.reference? source = some value ↔ Refers source n value :=
  ⟨refers_of_reference? h, reference?_of_refers h⟩

-- =========================================================== statements

/-- An import statement makes one import of what it refers to. -/
theorem Clear.exists_importOf? (source : Bytes) (h : n.Clear)
    (hn : n.kind = .importStatement) :
    ∃ o, n.importOf? child? source = .ok o ∧
      o.map Import.source = n.reference? source := by
  unfold importOf? reference?
  rw [hn]
  dsimp only
  cases hclause : n.firstOfKind .importRequireClause with
  | some clause =>
      have hclear := h.of_firstOfKind hclause
      dsimp only
      rw [hclear.child?_eq, ok_bind]
      cases stringValue? source (clause.inRole .source) with
      | none => exact ⟨_, rfl, rfl⟩
      | some path => exact ⟨_, rfl, rfl⟩
  | none =>
      dsimp only
      rw [h.child?_eq, ok_bind]
      cases stringValue? source (n.inRole .source) with
      | none => exact ⟨_, rfl, rfl⟩
      | some path =>
          dsimp only
          cases hnames : n.firstOfKind .importClause with
          | none => exact ⟨_, rfl, rfl⟩
          | some clause =>
              have hclear := h.of_firstOfKind hnames
              obtain ⟨c, hc⟩ := exists_ok_of_failsAs <| FailsAs.foldlM
                (f := Clause.add child? source n.isTypeOnly)
                (fun child hchild => Clear.covers.clauseAdd
                  (Clear.covers.namedChild hclear hchild))
                ⟨[], if n.isTypeOnly then .typeOnly else .named, false⟩
              dsimp only
              rw [hc]
              exact ⟨_, rfl, rfl⟩

/-- A call makes one import of what it refers to. -/
theorem Clear.exists_requireOf? (source : Bytes) {parent : Option Node}
    (h : n.Clear) (hparent : ∀ p ∈ parent, p.Clear) (hn : n.kind = .callExpression) :
    ∃ o, n.requireOf? child? source parent = .ok o ∧
      o.map Import.source = n.reference? source := by
  unfold requireOf? reference?
  rw [hn, h.child?_eq, ok_bind]
  dsimp only
  cases n.inRole .function with
  | none => exact ⟨_, rfl, rfl⟩
  | some function =>
      dsimp only
      by_cases hrequire : function.kind = .identifier ∧ function.text source = "require"
      · rw [if_neg (by tauto), if_pos hrequire, h.child?_eq, ok_bind]
        cases n.inRole .arguments with
        | none => exact ⟨_, rfl, rfl⟩
        | some arguments =>
            dsimp only [Option.bind_some]
            cases stringValue? source arguments.namedChildren.head? with
            | none => exact ⟨_, rfl, rfl⟩
            | some path =>
                dsimp only
                cases parent with
                | none => exact ⟨_, rfl, rfl⟩
                | some p =>
                    dsimp only
                    split
                    · obtain ⟨names, hnames⟩ :
                          ∃ names, declaratorNames child? source p = .ok names :=
                        exists_ok_of_failsAs
                          (Clear.covers.declaratorNames (hparent p rfl))
                      rw [hnames]
                      exact ⟨_, rfl, rfl⟩
                    · exact ⟨_, rfl, rfl⟩
      · rw [if_pos (by tauto), if_neg hrequire]
        exact ⟨_, rfl, rfl⟩

/-- An export statement makes one import of what it refers to. -/
theorem Clear.exists_yields_readExport (h : n.Clear)
    (hn : n.kind = .exportStatement) :
    ∃ imports exports,
      (n.readExport child? source).Yields (.ok (imports, exports)) ∧
      imports.map Import.source = (n.reference? source).toList := by
  have hsource : ∀ (path : Option String) names kind,
      ((path.toList.map fun path => (⟨path, kind, names⟩ : Import)).map
        Import.source) = path.toList := by
    intro path names kind
    rw [List.map_map, Function.comp_def, List.map_id']
  unfold readExport reference?
  rw [hn, h.child?_eq, Reader.answer_bind]
  dsimp only
  cases hclause : n.firstOfKind .exportClause with
  | some clause =>
      obtain ⟨names, hnames⟩ : ∃ names,
          specifierNames child? source .exportSpecifier clause = .ok names :=
        exists_ok_of_failsAs
          (Clear.covers.specifierNames (h.of_firstOfKind hclause))
      dsimp only
      rw [hnames, Reader.answer_bind]
      exact ⟨_, _, (Reader.yields_addExports _).andThen (Reader.yields_addImports _),
        hsource ..⟩
  | none =>
      cases hfrom : n.inRole .source with
      | some s =>
          exact ⟨_, _, (Reader.yields_addExports _).andThen (Reader.yields_addImports _),
            hsource ..⟩
      | none =>
          dsimp only
          rw [if_neg (by simp)]
          split
          · exact ⟨_, _, Reader.yields_addExports _, rfl⟩
          · rw [h.child?_eq, Reader.answer_bind]
            cases hdeclaration : n.inRole .declaration with
            | none => exact ⟨_, _, Reader.yields_pure, rfl⟩
            | some declaration =>
                obtain ⟨names, hnames⟩ : ∃ names,
                    declaredNames child? source declaration = .ok names :=
                  exists_ok_of_failsAs
                    (Clear.covers.declaredNames (h.of_inRole hdeclaration))
                dsimp only
                rw [hnames, Reader.answer_bind]
                exact ⟨_, _, Reader.yields_addExports _, rfl⟩

end Node

-- ======================================================== what is read

namespace Visit

variable {source : Bytes} {v w : Visit}

/-- All that the reading of a node asks about is clear. -/
def Clear (v : Visit) : Prop :=
  v.node.Clear ∧ ∀ p ∈ v.parent, p.Clear

theorem Clear.at? {a : Address} (h : v.Clear) (hw : v.at? a = some w) :
    w.Clear := by
  induction a generalizing v with
  | nil =>
      obtain rfl := Option.some.inj hw
      exact h
  | cons i a ih =>
      obtain ⟨c, hc, hw⟩ := Option.bind_eq_some_iff.1 hw
      refine ih ⟨h.1.of_mem_children (List.mem_of_getElem? hc), ?_⟩ hw
      intro p hp
      obtain rfl := Option.some.inj hp
      exact h.1

/-- A node is read to its end, and makes one import if it refers to
something and none if it does not. -/
theorem Clear.exists_yields (source : Bytes) (h : v.Clear) :
    ∃ imports exports,
      (v.reader Node.child? source).Yields (.ok (imports, exports)) ∧
      imports.map Import.source = (v.node.reference? source).toList := by
  unfold reader
  cases hkind : v.node.kind with
  | importStatement =>
      obtain ⟨o, ho, hsource⟩ := h.1.exists_importOf? source hkind
      dsimp only
      rw [ho, Reader.answer_bind, ← hsource]
      exact ⟨_, _, Reader.yields_addImports _, Option.toList_map.symm⟩
  | callExpression =>
      obtain ⟨o, ho, hsource⟩ := h.1.exists_requireOf? source h.2 hkind
      dsimp only
      rw [ho, Reader.answer_bind, ← hsource]
      exact ⟨_, _, Reader.yields_addImports _, Option.toList_map.symm⟩
  | exportStatement => exact h.1.exists_yields_readExport hkind
  | _ =>
      refine ⟨_, _, Reader.yields_pure, ?_⟩
      unfold Node.reference?
      rw [hkind]
      rfl

/-- What is found at a clear node has what the node refers to. -/
theorem Clear.sources_alone (h : v.Clear) :
    (v.alone Node.child? source).imports.map Import.source =
      (v.node.reference? source).toList := by
  obtain ⟨imports, exports, hyields, hsource⟩ := h.exists_yields source
  rw [alone, look_of_yields_ok hyields, ← hsource]
  rfl

theorem sources_foldl_look {visits : List Visit} (found : Findings)
    (h : ∀ v ∈ visits, v.Clear) :
    (visits.foldl (look Node.child? source) found).imports.map Import.source =
      found.imports.map Import.source ++
        visits.filterMap fun v => v.node.reference? source := by
  induction visits generalizing found with
  | nil => exact (List.append_nil _).symm
  | cons v visits ih =>
      rw [List.forall_mem_cons] at h
      rw [List.foldl_cons, ih _ h.2, look_eq_append, Findings.append_eq,
        List.map_append, h.1.sources_alone, List.append_assoc, List.filterMap_cons]
      cases v.node.reference? source with
      | none => rfl
      | some value => rfl

end Visit

/-- The imports of a clear tree are its references, in order. -/
theorem Node.Clear.sources_findings {source : Bytes} {root : Node}
    (h : root.Clear) :
    (root.findings child? source).imports.map Import.source =
      root.addresses.filterMap fun a => (root.sub? a).bind (reference? source) := by
  have hroot : (Visit.ofRoot root).Clear := ⟨h, fun p hp => by cases hp⟩
  have hclear : ∀ v ∈ root.addresses.filterMap (Visit.ofRoot root).at?, v.Clear := by
    intro v hv
    obtain ⟨a, -, hv⟩ := List.mem_filterMap.1 hv
    exact hroot.at? hv
  unfold findings
  rw [walk_root, tour_eq_filterMap_route]
  refine (Visit.sources_foldl_look .nothing hclear).trans ?_
  rw [List.filterMap_filterMap]
  refine List.filterMap_congr fun a _ => ?_
  rw [← show (Visit.ofRoot root).node = root from rfl, ← Visit.map_node_at?,
    Option.bind_map]
  rfl

theorem Node.Clear.mem_sources_iff {source : Bytes} {root : Node}
    (h : root.Clear) {value : String} :
    value ∈ (root.findings child? source).imports.map Import.source ↔
      ∃ a n, root.sub? a = some n ∧ Refers source n value := by
  rw [h.sources_findings, List.mem_filterMap]
  simp only [Option.bind_eq_some_iff]
  constructor
  · intro hmem
    obtain ⟨a, -, n, hn, hvalue⟩ := hmem
    exact ⟨a, n, hn, (reference?_eq_some_iff (h.sub? hn)).1 hvalue⟩
  · intro hrefers
    obtain ⟨a, n, hn, hrefers⟩ := hrefers
    exact ⟨a, mem_addresses_iff.2 ⟨n, hn⟩, n, hn,
      (reference?_eq_some_iff (h.sub? hn)).2 hrefers⟩

end ModuleAtlas.Syntax
