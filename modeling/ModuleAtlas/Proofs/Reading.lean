/-
What a reading says.

# Dependencies

The dependencies of a file are exactly what its imports resolve to, from
its own path (`mem_dependencies_iff`): nothing is lost in dropping
repetitions, and nothing is added.

# Its path

A file that could be read is recorded under the absolute normal form of
the path that it was found at (`path_of_ofFile`).

# What can fail

A file is read if there is one, it holds text and each of its imports can
be looked up (`ofFile_eq_ok_iff`). If a tree gives no reading, it has an
unanswered import (`exists_of_ofTree_eq_error`).
-/
import ModuleAtlas.Reading
import ModuleAtlas.Proofs.FileTree
import ModuleAtlas.Proofs.First
import ModuleAtlas.Proofs.Path
import ModuleAtlas.Proofs.Success

namespace ModuleAtlas

namespace Reading

-- ======================================================== repetitions

theorem distinct_eq_eraseDups (items : List String) :
    distinct items = items.eraseDups :=
  foldl_addNew_nil items

/-- To drop repetitions drops no item. -/
theorem mem_distinct_iff {items : List String} {x : String} :
    x ∈ distinct items ↔ x ∈ items := by
  rw [distinct_eq_eraseDups, List.mem_eraseDups]

-- ======================================================== dependencies

variable {isFile : FileTest} {extensions : List String} {here path : String}

/-- What a reading is made of. -/
theorem ofTree_eq_ok_iff {source : Bytes} {root : Syntax.Node} {r : Reading} :
    ofTree isFile extensions here path source root = .ok r ↔
      ∃ found,
        (findings source root).imports.mapM
          (fun i => Resolver.resolve isFile extensions here path i.source) =
            .ok found ∧
        r = ⟨{
          path := path
          imports := (findings source root).imports
          exports := (findings source root).exports
          dependencies := distinct (found.filterMap id)
          faults := (findings source root).faults },
          if root.hasMark then (findings source root).faults.length
          else 0⟩ := by
  unfold ofTree
  rw [Success.bind_eq_ok_iff]
  constructor
  · intro h
    obtain ⟨found, hfound, h⟩ := h
    exact ⟨found, hfound, (Except.ok.inj h).symm⟩
  · intro h
    obtain ⟨found, hfound, rfl⟩ := h
    exact ⟨found, hfound, rfl⟩

/-- A tree can be read if each of its imports can be looked up. -/
theorem exists_ofTree_eq_ok_iff {source : Bytes} {root : Syntax.Node} :
    (∃ r, ofTree isFile extensions here path source root = .ok r) ↔
      ∀ i ∈ (findings source root).imports,
        ∃ o, Resolver.resolve isFile extensions here path i.source = .ok o := by
  simp only [ofTree_eq_ok_iff]
  rw [← Success.exists_mapM_eq_ok_iff]
  constructor
  · intro h
    obtain ⟨r, found, hfound, -⟩ := h
    exact ⟨found, hfound⟩
  · intro h
    obtain ⟨found, hfound⟩ := h
    exact ⟨_, found, hfound, rfl⟩

/-- A tree that cannot be read has an import that could not be looked
up. -/
theorem exists_of_ofTree_eq_error {source : Bytes} {root : Syntax.Node}
    {e : SystemError}
    (h : ofTree isFile extensions here path source root = .error e) :
    ∃ i ∈ (findings source root).imports,
      Resolver.resolve isFile extensions here path i.source = .error e := by
  unfold ofTree at h
  rcases Success.bind_eq_error_iff.1 h with hfound | ⟨found, -, hrest⟩
  · exact Success.exists_of_mapM_eq_error hfound
  · cases hrest

/-- The dependencies of a file are what its imports resolve to. -/
theorem mem_dependencies_iff {source : Bytes} {root : Syntax.Node}
    {r : Reading} (h : ofTree isFile extensions here path source root = .ok r)
    {d : String} :
    d ∈ r.module.dependencies ↔
      ∃ i ∈ r.module.imports,
        Resolver.resolve isFile extensions here path i.source =
          .ok (some d) := by
  obtain ⟨found, hfound, rfl⟩ := ofTree_eq_ok_iff.1 h
  have hmem : some d ∈ found ↔ _ := Success.mem_iff_of_mapM_eq_ok hfound
  show d ∈ distinct (found.filterMap id) ↔ _
  rw [mem_distinct_iff, List.mem_filterMap, ← hmem]
  constructor
  · intro h
    obtain ⟨o, ho, heq⟩ := h
    rw [← show o = some d from heq]
    exact ho
  · intro hd
    exact ⟨some d, hd, rfl⟩

-- =============================================================== files

/-- A file can be read if there is one, it holds text, and each of its
imports can be looked up. -/
theorem ofFile_eq_ok_iff {grammar : Grammar} {t : FileTree} {r : Reading} :
    ofFile grammar t extensions path = .ok r ↔
      t.leadsSomewhere (Path.absolute t.here path) = true ∧
      ∃ source, t.read (Path.absolute t.here path) = .ok source ∧
        source.any isBinary = false ∧
        ofTree t.isFile extensions t.here (Path.absolute t.here path) source
          (grammar (dialect (Path.absolute t.here path)) source) = .ok r := by
  unfold ofFile
  dsimp only
  rw [Success.refuse_eq_ok_iff, Success.bind_eq_ok_iff]
  simp only [Success.refuse_eq_ok_iff, Success.mapError_eq_ok_iff,
    Bool.not_eq_true, Bool.not_eq_false']

/-- A file of text is at the path: it can be read, and no byte of it is
one that no text holds. -/
def HoldsText (t : FileTree) (path : String) (source : Bytes) : Prop :=
  t.read path = .ok source ∧ source.any isBinary = false

/-- Of a file of text, only the imports can fail. -/
theorem ofFile_of_holdsText {grammar : Grammar} {t : FileTree} {source : Bytes}
    (h : HoldsText t (Path.absolute t.here path) source) :
    ofFile grammar t extensions path =
      (ofTree t.isFile extensions t.here (Path.absolute t.here path) source
        (grammar (dialect (Path.absolute t.here path)) source)).mapError
          (Failure.unreadable (Path.absolute t.here path)) := by
  obtain ⟨hread, htext⟩ := h
  unfold ofFile
  dsimp only
  rw [FileTree.leadsSomewhere_of_read hread, hread]
  simp [Except.mapError, htext, bind, Except.bind]

/-- A file is recorded under the absolute form of its path. -/
theorem path_of_ofFile {grammar : Grammar} {t : FileTree} {r : Reading}
    (h : ofFile grammar t extensions path = .ok r) :
    r.module.path = Path.absolute t.here path := by
  obtain ⟨-, source, -, -, htree⟩ := ofFile_eq_ok_iff.1 h
  obtain ⟨found, -, rfl⟩ := ofTree_eq_ok_iff.1 htree
  rfl

/-- What was read is a file under the path that it is recorded under. -/
theorem isFile_of_ofFile {grammar : Grammar} {t : FileTree} {r : Reading}
    (h : ofFile grammar t extensions path = .ok r) :
    t.isFile r.module.path = .ok true := by
  rw [path_of_ofFile h]
  obtain ⟨-, source, hread, -⟩ := ofFile_eq_ok_iff.1 h
  exact FileTree.isFile_of_look (FileTree.look_of_read hread)

/-- The dependencies of a file are what its imports resolve to from its
own path. -/
theorem mem_dependencies_of_ofFile {grammar : Grammar} {t : FileTree}
    {r : Reading} (h : ofFile grammar t extensions path = .ok r) {d : String} :
    d ∈ r.module.dependencies ↔
      ∃ i ∈ r.module.imports,
        Resolver.resolve t.isFile extensions t.here r.module.path i.source =
          .ok (some d) := by
  rw [path_of_ofFile h]
  obtain ⟨-, source, -, -, htree⟩ := ofFile_eq_ok_iff.1 h
  exact mem_dependencies_iff htree

end Reading

end ModuleAtlas
