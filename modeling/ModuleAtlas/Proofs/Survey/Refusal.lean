/-
What comes of a file that can be read.

# Questions without an answer

A fault in a text is recorded with the file, and an import that names
nothing is no fault at all. What can go wrong with a readable file is one
thing only: to resolve its imports, the system is asked whether certain
paths are files (`Asks`), and it refuses to tell of a path that is too
long or has a name that is (`FileTree.Refuses`). The file is read exactly
if none of these questions is refused (`exists_ofFile_eq_ok_iff`), and
otherwise the refusal is the reason that is given
(`exists_of_ofFile_eq_error`).

# A name that is too long

The imports of a file can name anything, so that does happen: in
`holding useOfLongName` there is one file, which imports a name of 256
bytes. No such file can exist, but the file that names it is not read.
-/
import Mathlib
import ModuleAtlas.Proofs.FileTree
import ModuleAtlas.Proofs.Path
import ModuleAtlas.Proofs.Resolve
import ModuleAtlas.Proofs.Survey.Provenance

namespace ModuleAtlas

variable {grammar : Grammar} {t : FileTree} {extensions : List String}
    {path : String} {source : Bytes}

namespace Reading

-- ========================================================= readable files

/-- To resolve the imports of the file at the path, the system is asked
whether `q` is a file. -/
def Asks (grammar : Grammar) (t : FileTree) (extensions : List String)
    (path : String) (source : Bytes) (q : String) : Prop :=
  ∃ i ∈ (findings source (grammar (dialect path) source)).imports,
    Specifier.isRelative i.source = true ∧
      Resolver.Tries t.isFile
        (Resolver.candidates extensions (Resolver.target t.here path i.source)) q

/-- An import is resolved if no question about it is refused. -/
theorem exists_resolve_error_iff {e : SystemError} :
    (∃ i ∈ (findings source (grammar (dialect path) source)).imports,
        Resolver.resolve t.isFile extensions t.here path i.source = .error e) ↔
      ∃ q, Asks grammar t extensions path source q ∧ t.Refuses q ∧
        e = .nameTooLong q := by
  simp only [Resolver.resolve_eq_error_iff, FileTree.isFile_eq_error_iff]
  constructor
  · intro h
    obtain ⟨i, hi, hrel, q, hq, href⟩ := h
    exact ⟨q, ⟨i, hi, hrel, hq⟩, href⟩
  · intro h
    obtain ⟨q, ⟨i, hi, hrel, hq⟩, href⟩ := h
    exact ⟨i, hi, hrel, q, hq, href⟩

/-- A file of text that is not read was refused an answer. -/
theorem exists_of_ofFile_eq_error
    (h : HoldsText t (Path.absolute t.here path) source) {e : Failure}
    (herr : ofFile grammar t extensions path = .error e) :
    ∃ q, Asks grammar t extensions (Path.absolute t.here path) source q ∧
      t.Refuses q ∧
      e = .unreadable (Path.absolute t.here path) (.nameTooLong q) := by
  rw [ofFile_of_holdsText h, Success.mapError_eq_error_iff] at herr
  obtain ⟨c, hc, rfl⟩ := herr
  obtain ⟨q, hask, href, rfl⟩ :=
    exists_resolve_error_iff.1 (exists_of_ofTree_eq_error hc)
  exact ⟨q, hask, href, rfl⟩

/-- A file of text is read exactly if no answer is refused. -/
theorem exists_ofFile_eq_ok_iff
    (h : HoldsText t (Path.absolute t.here path) source) :
    (∃ r, ofFile grammar t extensions path = .ok r) ↔
      ∀ q, Asks grammar t extensions (Path.absolute t.here path) source q →
        ¬ t.Refuses q := by
  constructor
  · intro hread q hask href
    obtain ⟨i, hi, hfail⟩ :=
      exists_resolve_error_iff.2 ⟨q, hask, href, rfl⟩
    simp only [ofFile_of_holdsText h, Success.mapError_eq_ok_iff,
      exists_ofTree_eq_ok_iff] at hread
    obtain ⟨o, ho⟩ := hread i hi
    rw [hfail] at ho
    cases ho
  · intro hall
    rw [Success.exists_ok_iff]
    intro e herr
    obtain ⟨q, hask, href, -⟩ := exists_of_ofFile_eq_error h herr
    exact hall q hask href

end Reading

-- ============================================================== surveys

namespace Survey

variable {config : Config} {root : String}

/-- The files that a survey skips are those that it listed and could not
read. -/
theorem mem_skipped_ofPaths_iff {paths : List String} :
    path ∈ (ofPaths grammar t config root paths).project.skipped ↔
      path ∈ paths ∧
        ¬ ∃ r, Reading.ofFile grammar t config.resolverExtensions path =
          .ok r := by
  show path ∈ skipped (outcomes grammar t config paths) ↔ _
  rw [mem_skipped_iff, Success.exists_ok_iff, not_forall_not]
  simp only [mem_outcomes_iff]
  constructor
  · intro h
    obtain ⟨e, hpath, he⟩ := h
    exact ⟨hpath, e, he.symm⟩
  · intro h
    obtain ⟨hpath, e, he⟩ := h
    exact ⟨e, hpath, he.symm⟩

-- =============================================== a name that is too long

/-- A tree of one file. -/
def holding (source : Bytes) : FileTree where
  top := .dir [("a.ts", .file source)]
  here := "/"

/-- What imports the file of the long name beside it: the name between
`import './` and `';`. -/
def useOfLongName : Bytes :=
  [105, 109, 112, 111, 114, 116, 32, 39, 46, 47] ++
    List.replicate 256 120 ++ [39, 59]

/-- The specifier in this text. -/
def longSpecifier : String :=
  String.ofList ('.' :: '/' :: Path.longName)

/-- The path that it means. -/
def longPath : String :=
  String.ofList ('/' :: Path.longName)

theorem holdsText_holding :
    Reading.HoldsText (holding useOfLongName) "/a.ts" useOfLongName := by
  have hlook : (holding useOfLongName).look "/a.ts" =
      .ok (some (.file useOfLongName)) := by
    unfold FileTree.look
    rw [FileTree.spot_eq_walk (by decide) (by decide) (by decide)]
    generalize useOfLongName = source
    cbv
  exact ⟨FileTree.read_of_look hlook, by decide +kernel⟩

set_option maxRecDepth 100000 in
theorem findings_longName :
    Reading.findings useOfLongName
        (oneImport (Reading.dialect "/a.ts") useOfLongName) =
      ⟨[⟨longSpecifier, .named, []⟩], [], []⟩ := by
  cbv

/-- No directory tells whether it holds a name that is too long. -/
theorem refuses_longPath (source : Bytes) :
    (holding source).Refuses longPath := by
  obtain ⟨hne, hdot, hdots⟩ := Path.isName_longName.ofList_ne
  refine ⟨?_, ?_, .inr ?_⟩
  · rw [longPath, Ne, String.ofList_eq_empty_iff]
    exact List.cons_ne_nil _ _
  · rw [longPath, String.toList_ofList]
    decide
  · have hsegments : Path.segments longPath = ["", String.ofList Path.longName] :=
      Path.isName_longName.segments_append []
    have hjoin : Path.join (holding source).here longPath = longPath :=
      Path.join_cons ..
    rw [hjoin, hsegments, FileTree.walk]
    exact FileTree.walk_longName rfl hne hdot hdots (by decide +kernel)

/-- To resolve the import, the system is asked about that name. -/
theorem asks_longPath (extensions : List String) :
    Reading.Asks oneImport (holding useOfLongName) extensions "/a.ts"
      useOfLongName longPath := by
  unfold Reading.Asks
  rw [findings_longName]
  refine ⟨_, List.mem_singleton_self _, Resolver.isRelative_beside _, ?_⟩
  dsimp only
  rw [longSpecifier, Resolver.target_beside (by decide) Path.isName_longName]
  exact Resolver.tries_target _ _ _

-- ======================================================== refused answers

/-- What can be read is read, and not skipped, unless the system refuses
to tell whether something that its imports may lead to is a file. -/
theorem readable_skipped_iff (grammar : Grammar) (t : FileTree) :
    (∀ extensions path source,
      Reading.HoldsText t (Path.absolute t.here path) source →
        ((∃ r, Reading.ofFile grammar t extensions path = .ok r) ↔
          ∀ q, Reading.Asks grammar t extensions (Path.absolute t.here path)
            source q → ¬ t.Refuses q) ∧
        ∀ e, Reading.ofFile grammar t extensions path = .error e →
          ∃ q, Reading.Asks grammar t extensions (Path.absolute t.here path)
              source q ∧ t.Refuses q ∧
            e = .unreadable (Path.absolute t.here path) (.nameTooLong q)) ∧
    ∀ config root paths,
      Scan.sourceFiles t ⟨config.effectiveExtensions, config.excludeDirs⟩
          config.maxDepth root = .ok paths →
        ∃ survey, ofDirectory grammar t config root = .ok survey ∧
          ∀ path ∈ paths, ∀ source,
            Reading.HoldsText t (Path.absolute t.here path) source →
              (path ∈ survey.project.skipped ↔
                ∃ q, Reading.Asks grammar t config.resolverExtensions
                  (Path.absolute t.here path) source q ∧ t.Refuses q) := by
  constructor
  · intro extensions path source h
    exact ⟨Reading.exists_ofFile_eq_ok_iff h,
      fun e herr => Reading.exists_of_ofFile_eq_error h herr⟩
  · intro config root paths hpaths
    refine ⟨_, ofDirectory_eq_ok_iff.2 ⟨paths, hpaths, rfl⟩, ?_⟩
    intro path hpath source h
    rw [mem_skipped_ofPaths_iff, Reading.exists_ofFile_eq_ok_iff h]
    constructor
    · intro hskip
      by_contra hnone
      exact hskip.2 fun q hask href => hnone ⟨q, hask, href⟩
    · intro hrefused
      obtain ⟨q, hask, href⟩ := hrefused
      exact ⟨hpath, fun hall => hall q hask href⟩

/-- A readable file without a fault need not be read. -/
theorem readable_file_refused :
    ¬ ∀ (grammar : Grammar) (t : FileTree) (extensions : List String)
        (path : String) (source : Bytes),
      Reading.HoldsText t (Path.absolute t.here path) source →
        (Reading.findings source
          (grammar (Reading.dialect (Path.absolute t.here path)) source)).faults =
            [] →
        ∃ r, Reading.ofFile grammar t extensions path = .ok r := by
  intro h
  have hpath : Path.absolute "/" "/a.ts" = "/a.ts" := by decide
  have htext : Reading.HoldsText (holding useOfLongName)
      (Path.absolute (holding useOfLongName).here "/a.ts") useOfLongName :=
    hpath.symm ▸ holdsText_holding
  have hread := h oneImport (holding useOfLongName) [] "/a.ts" useOfLongName
    htext (by
      show (Reading.findings _ (oneImport (Reading.dialect
        (Path.absolute "/" "/a.ts")) _)).faults = []
      rw [hpath, findings_longName])
  refine (Reading.exists_ofFile_eq_ok_iff htext).1 hread longPath ?_
    (refuses_longPath _)
  show Reading.Asks _ _ _ (Path.absolute "/" "/a.ts") _ _
  rw [hpath]
  exact asks_longPath []

end Survey

end ModuleAtlas
