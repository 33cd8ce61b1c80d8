/-
What becomes of the imports of a file.

# Two questions about one import

Where an import leads to is asked twice: when the file is read, for its
dependencies, and when its unresolved imports are listed. The second time
the answer is compared with all dependencies of the file, not with that of
the import itself. Nothing is lost in that: a file could be read only if
each of its imports was answered (`exists_resolve_of_ofFile`), and what was
answered with a file is among the dependencies.

# Three kinds

So an import that names nothing of the tree is neither found nor missing,
one that is found is not listed, and what is listed are the others, as they
stand in the file (`unresolved_of_ofFile`).
-/
import ModuleAtlas.Proofs.Reading.Dependencies
import ModuleAtlas.Proofs.Resolve

namespace ModuleAtlas.Reading

open Syntax (lineOf onLine)

variable {isFile : FileTest} {extensions : List String} {here path : String}
    {grammar : Grammar} {t : FileTree} {m : Module} {r : Reading} {i : Import}

-- ================================================================= kinds

/-- The import names nothing of the tree. -/
def IsExternal (i : Import) : Prop := Specifier.isRelative i.source = false

/-- The import leads to one of the dependencies of its module. -/
def IsFound (isFile : FileTest) (extensions : List String) (here : String) (m : Module)
    (i : Import) : Prop :=
  ∃ d ∈ m.dependencies,
    Resolver.resolve isFile extensions here m.path i.source = .ok (some d)

/-- The import names a place in the tree, and nothing is there. -/
def IsMissing (isFile : FileTest) (extensions : List String) (here : String) (m : Module)
    (i : Import) : Prop :=
  Specifier.isRelative i.source = true ∧
    Resolver.resolve isFile extensions here m.path i.source = .ok none

instance (isFile : FileTest) (extensions : List String) (here : String) (m : Module) :
    DecidablePred (IsMissing isFile extensions here m) := fun i =>
  inferInstanceAs (Decidable (Specifier.isRelative i.source = true ∧
    Resolver.resolve isFile extensions here m.path i.source = .ok none))

/-- One of these holds, and no other. -/
def OneOf (a b c : Prop) : Prop :=
  a ∧ ¬ b ∧ ¬ c ∨ ¬ a ∧ b ∧ ¬ c ∨ ¬ a ∧ ¬ b ∧ c

theorem resolve_of_isExternal (h : IsExternal i) :
    Resolver.resolve isFile extensions here path i.source = .ok none := by
  unfold Resolver.resolve
  rw [if_neg]
  rw [show Specifier.isRelative i.source = false from h]
  exact Bool.false_ne_true

/-- What leads to a file does not lead nowhere. -/
theorem IsFound.not_resolve_none (h : IsFound isFile extensions here m i) :
    Resolver.resolve isFile extensions here m.path i.source ≠ .ok none := by
  obtain ⟨d, -, hresolve⟩ := h
  rw [hresolve]
  exact fun heq => Option.some_ne_none d (Except.ok.inj heq)

/-- An import that was answered is of one kind, if the dependencies hold
what it was answered with. -/
theorem oneOf_of_resolve {o : Option String}
    (h : Resolver.resolve isFile extensions here m.path i.source = .ok o)
    (hdependency : ∀ d, o = some d → d ∈ m.dependencies) :
    OneOf (IsExternal i) (IsFound isFile extensions here m i)
      (IsMissing isFile extensions here m i) := by
  cases hrelative : Specifier.isRelative i.source with
  | false =>
      have hexternal : IsExternal i := hrelative
      refine .inl ⟨hexternal, fun hfound => ?_, fun hmissing => ?_⟩
      · exact hfound.not_resolve_none (resolve_of_isExternal hexternal)
      · exact Bool.false_ne_true (hrelative.symm.trans hmissing.1)
  | true =>
      have hinside : ¬ IsExternal i := fun hexternal => by
        rw [hexternal] at hrelative
        cases hrelative
      cases o with
      | none =>
          exact .inr (.inr ⟨hinside, fun hfound => hfound.not_resolve_none h, hrelative, h⟩)
      | some d =>
          have hfound : IsFound isFile extensions here m i := ⟨d, hdependency d rfl, h⟩
          exact .inr (.inl ⟨hinside, hfound, fun hmissing =>
            hfound.not_resolve_none hmissing.2⟩)

-- =============================================================== listing

/-- Where every import was answered and the dependencies hold the answers,
the unresolved imports are the missing ones. -/
theorem unresolved_eq_filter
    (h : ∀ i ∈ m.imports, ∃ o,
      Resolver.resolve isFile extensions here m.path i.source = .ok o ∧
        ∀ d, o = some d → d ∈ m.dependencies) :
    Resolver.unresolved isFile extensions here m =
      .ok (m.imports.filter (IsMissing isFile extensions here m)) := by
  unfold Resolver.unresolved
  refine (Success.filterM_eq_ok
    (fun i => decide (Resolver.resolve isFile extensions here m.path i.source = .ok none))
    fun i hi => ?_).trans ?_
  · obtain ⟨o, hresolve, hdependency⟩ := h i (List.mem_filter.1 hi).1
    rw [hresolve, Success.ok_bind]
    cases o with
    | none => rfl
    | some d =>
        have hmem : m.dependencies.contains d = true :=
          List.contains_iff_mem.2 (hdependency d rfl)
        show pure (!m.dependencies.contains d) = _
        rw [hmem]
        rfl
  · rw [List.filter_filter]
    refine congrArg Except.ok (List.filter_congr fun i _ => ?_)
    rw [Bool.eq_iff_iff, Bool.and_eq_true, decide_eq_true_eq, decide_eq_true_eq]
    exact and_comm

-- ================================================================= files

/-- A file could be read only if each of its imports was answered, and what
was answered with a file is a dependency. -/
theorem exists_resolve_of_ofFile (h : ofFile grammar t extensions path = .ok r)
    (hi : i ∈ r.module.imports) :
    ∃ o, Resolver.resolve t.isFile extensions t.here r.module.path i.source = .ok o ∧
      ∀ d, o = some d → d ∈ r.module.dependencies := by
  obtain ⟨-, source, -, -, htree⟩ := ofFile_eq_ok_iff.1 h
  have hanswered := exists_ofTree_eq_ok_iff.1 ⟨r, htree⟩
  obtain ⟨found, -, hr⟩ := ofTree_eq_ok_iff.1 htree
  have himports : r.module.imports = (findings source
      (grammar (dialect (Path.absolute t.here path)) source)).imports := by
    rw [hr]
  rw [himports] at hi
  obtain ⟨o, ho⟩ := hanswered i hi
  rw [← path_of_ofFile h] at ho
  refine ⟨o, ho, fun d hd => ?_⟩
  rw [← himports] at hi
  exact (mem_dependencies_of_ofFile h).2 ⟨i, hi, by rw [ho, hd]⟩

-- ====================================================== a file with gaps

/-- A text that uses a file beside it, a package, and a file that is not
there, this one twice. -/
def textWithGaps : Bytes :=
  lineOf "import'./b.ts';import'./c';import'react';import'./c'"

/-- The tree of this text, whatever it is called to parse. -/
def gapGrammar : Grammar := fun _ _ =>
  onLine (.other "program") none true 0 52
    [use .importStatement 0 6 14, use .importStatement 15 21 26,
      use .importStatement 27 33 40, use .importStatement 41 47 52]

def gapTree : FileTree where
  top := .dir [("a.ts", .file textWithGaps), ("b.ts", .file [])]
  here := "/"

/-- What there is to say about the file. -/
def gapModule : Module :=
  ⟨"/a.ts", [⟨"./b.ts", .named, []⟩, ⟨"./c", .named, []⟩, ⟨"react", .named, []⟩,
    ⟨"./c", .named, []⟩], [], ["/b.ts"], []⟩

theorem resolve_gapTree :
    Resolver.resolve gapTree.isFile [".ts"] "/" "/a.ts" "./b.ts" = .ok (some "/b.ts") ∧
      Resolver.resolve gapTree.isFile [".ts"] "/" "/a.ts" "./c" = .ok none ∧
      Resolver.resolve gapTree.isFile [".ts"] "/" "/a.ts" "react" = .ok none := by
  have htarget : Resolver.target "/" "/a.ts" "./b.ts" = "/b.ts" := by decide
  have hcandidates : Resolver.candidates [".ts"] (Resolver.target "/" "/a.ts" "./c") =
      ["/c", "/c.ts", "/c/index.ts"] := by decide
  obtain ⟨hb, hc, hts, hindex⟩ : gapTree.isFile "/b.ts" = .ok true ∧
      gapTree.isFile "/c" = .ok false ∧ gapTree.isFile "/c.ts" = .ok false ∧
      gapTree.isFile "/c/index.ts" = .ok false := by
    unfold FileTree.isFile FileTree.look
    refine ⟨?_, ?_, ?_, ?_⟩ <;>
      (rw [FileTree.spot_eq_walk (by decide) (by decide) (by decide)]; cbv)
  refine ⟨?_, ?_, rfl⟩
  · rw [Resolver.resolve_of_isFile_target (by decide) (htarget.symm ▸ hb), htarget]
  · unfold Resolver.resolve
    rw [if_pos (by decide), hcandidates]
    simp only [Resolver.firstFile, hc, hts, hindex, Success.ok_bind]
    rfl

theorem ofFile_gapTree : ofFile gapGrammar gapTree [".ts"] "/a.ts" = .ok ⟨gapModule, 0⟩ := by
  obtain ⟨hb, hc, hreact⟩ := resolve_gapTree
  have hpath : Path.absolute gapTree.here "/a.ts" = "/a.ts" := by decide
  have hlook : gapTree.look "/a.ts" = .ok (some (.file textWithGaps)) := by
    unfold FileTree.look
    rw [FileTree.spot_eq_walk (by decide) (by decide) (by decide)]
    cbv
  have hfindings : findings textWithGaps (gapGrammar (dialect "/a.ts") textWithGaps) =
      ⟨gapModule.imports, [], []⟩ := by cbv
  rw [ofFile_eq_ok_iff, hpath]
  refine ⟨FileTree.leadsSomewhere_of_look hlook, textWithGaps, FileTree.read_of_look hlook,
    by decide, ofTree_eq_ok_iff.2 ⟨[some "/b.ts", none, none, none], ?_, ?_⟩⟩
  · rw [hfindings]
    exact Success.mapM_eq_ok_iff.2 (.cons hb (.cons hc (.cons hreact (.cons hc .nil))))
  · rw [hfindings]
    rfl

-- ============================================================ the partition

/-- Each import of a file that could be read is external, is found among the
dependencies, or is listed as unresolved, and only one of these. What is
listed are the missing imports, as they stand in the file, and for each
dependency there is an import. -/
theorem unresolved_of_ofFile (h : ofFile grammar t extensions path = .ok r) :
    ∃ missing, Resolver.unresolved t.isFile extensions t.here r.module = .ok missing ∧
      missing = r.module.imports.filter (IsMissing t.isFile extensions t.here r.module) ∧
      (∀ i ∈ r.module.imports,
        OneOf (IsExternal i) (IsFound t.isFile extensions t.here r.module i) (i ∈ missing) ∧
        (IsExternal i →
          Resolver.resolve t.isFile extensions t.here r.module.path i.source = .ok none)) ∧
      ∀ d ∈ r.module.dependencies, ∃ i ∈ r.module.imports,
        Resolver.resolve t.isFile extensions t.here r.module.path i.source = .ok (some d) := by
  refine ⟨_, unresolved_eq_filter fun i hi => exists_resolve_of_ofFile h hi, rfl,
    fun i hi => ⟨?_, resolve_of_isExternal⟩, fun d => (mem_dependencies_of_ofFile h).1⟩
  obtain ⟨o, hresolve, hdependency⟩ := exists_resolve_of_ofFile h hi
  have hlisted : i ∈ r.module.imports.filter
      (IsMissing t.isFile extensions t.here r.module) ↔
        IsMissing t.isFile extensions t.here r.module i := by
    rw [List.mem_filter, decide_eq_true_eq, and_iff_right hi]
  rw [hlisted]
  exact oneOf_of_resolve hresolve hdependency

theorem unresolved_of_ofFile_gaps :
    ofFile gapGrammar gapTree [".ts"] "/a.ts" = .ok ⟨gapModule, 0⟩ ∧
      Resolver.unresolved gapTree.isFile [".ts"] "/" gapModule =
        .ok [⟨"./c", .named, []⟩, ⟨"./c", .named, []⟩] ∧
      (∀ i ∈ gapModule.imports,
        OneOf (IsExternal i) (IsFound gapTree.isFile [".ts"] "/" gapModule i)
          (i ∈ [(⟨"./c", .named, []⟩ : Import), ⟨"./c", .named, []⟩])) ∧
      ∃ i ∈ gapModule.imports,
        Resolver.resolve gapTree.isFile [".ts"] "/" "/a.ts" i.source = .ok (some "/b.ts") := by
  obtain ⟨hb, hc, -⟩ := resolve_gapTree
  have hfound : ¬ IsMissing gapTree.isFile [".ts"] "/" gapModule ⟨"./b.ts", .named, []⟩ := by
    intro h
    cases hb.symm.trans h.2
  have hmissing : IsMissing gapTree.isFile [".ts"] "/" gapModule ⟨"./c", .named, []⟩ :=
    ⟨by decide, hc⟩
  have hexternal : ¬ IsMissing gapTree.isFile [".ts"] "/" gapModule ⟨"react", .named, []⟩ := by
    intro h
    exact absurd h.1 (by decide)
  obtain ⟨missing, hunresolved, rfl, hkinds, hdependencies⟩ :=
    unresolved_of_ofFile ofFile_gapTree
  have hlist : gapModule.imports.filter (IsMissing gapTree.isFile [".ts"] "/" gapModule) =
      [⟨"./c", .named, []⟩, ⟨"./c", .named, []⟩] := by
    rw [show gapModule.imports = [⟨"./b.ts", .named, []⟩, ⟨"./c", .named, []⟩,
        ⟨"react", .named, []⟩, ⟨"./c", .named, []⟩] from rfl,
      List.filter_cons_of_neg (by simpa using hfound),
      List.filter_cons_of_pos (by simpa using hmissing),
      List.filter_cons_of_neg (by simpa using hexternal),
      List.filter_cons_of_pos (by simpa using hmissing)]
    rfl
  refine ⟨ofFile_gapTree, hlist ▸ hunresolved, fun i hi => ?_, hdependencies "/b.ts" (by decide)⟩
  rw [← hlist]
  exact (hkinds i hi).1

end ModuleAtlas.Reading
