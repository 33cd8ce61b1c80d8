/-
How a specifier is resolved.

The candidates are asked for in order, and the first that is a file ends
the search. So the system is asked about a candidate only if it denied
all those before it (`Tries`), and to resolve a specifier fails exactly if
one of those questions does (`resolve_eq_error_iff`). A specifier that
names nothing is no failure: it is denied to the last candidate.
-/
import ModuleAtlas.Resolve
import ModuleAtlas.Proofs.Path
import ModuleAtlas.Proofs.Success

namespace ModuleAtlas.Resolver

variable {isFile : FileTest} {paths : List String} {path q : String}
    {e : SystemError}

-- ============================================================== trying

/-- Whether `q` is a file is asked in a search among these paths: it is
one of them, and none before it is a file. -/
def Tries (isFile : FileTest) (paths : List String) (q : String) : Prop :=
  ∃ earlier later, paths = earlier ++ q :: later ∧
    ∀ c ∈ earlier, isFile c = .ok false

theorem tries_cons_iff :
    Tries isFile (path :: paths) q ↔
      q = path ∨ isFile path = .ok false ∧ Tries isFile paths q := by
  constructor
  · intro h
    obtain ⟨earlier, later, hsplit, hdenied⟩ := h
    cases earlier with
    | nil => exact .inl (List.cons.inj hsplit).1.symm
    | cons c earlier =>
        obtain ⟨rfl, rfl⟩ := List.cons.inj hsplit
        rw [List.forall_mem_cons] at hdenied
        exact .inr ⟨hdenied.1, earlier, later, rfl, hdenied.2⟩
  · intro h
    rcases h with rfl | ⟨hpath, earlier, later, rfl, hdenied⟩
    · exact ⟨[], paths, rfl, by simp⟩
    · exact ⟨path :: earlier, later, rfl,
        List.forall_mem_cons.2 ⟨hpath, hdenied⟩⟩

/-- A search fails exactly if a question does that is asked in it. -/
theorem firstFile_eq_error_iff :
    firstFile isFile paths = .error e ↔
      ∃ q, Tries isFile paths q ∧ isFile q = .error e := by
  induction paths with
  | nil =>
      constructor
      · intro h
        cases h
      · intro h
        obtain ⟨q, ⟨earlier, later, hsplit, -⟩, -⟩ := h
        simp at hsplit
  | cons path paths ih =>
      unfold firstFile
      rw [Success.bind_eq_error_iff]
      simp only [tries_cons_iff]
      constructor
      · intro h
        rcases h with hpath | ⟨found, hpath, h⟩
        · exact ⟨path, .inl rfl, hpath⟩
        · cases found with
          | true => cases h
          | false =>
              obtain ⟨q, hq, hfail⟩ := ih.1 h
              exact ⟨q, .inr ⟨hpath, hq⟩, hfail⟩
      · intro h
        obtain ⟨q, rfl | ⟨hpath, hq⟩, hfail⟩ := h
        · exact .inl hfail
        · exact .inr ⟨false, hpath, ih.2 ⟨q, hq, hfail⟩⟩

/-- To resolve a specifier fails exactly if it is relative and one of the
questions about its candidates fails. -/
theorem resolve_eq_error_iff {extensions : List String}
    {here fromPath specifier : String} :
    resolve isFile extensions here fromPath specifier = .error e ↔
      Specifier.isRelative specifier = true ∧
        ∃ q, Tries isFile
          (candidates extensions (target here fromPath specifier)) q ∧
          isFile q = .error e := by
  unfold resolve
  by_cases hrel : Specifier.isRelative specifier = true
  · rw [if_pos hrel, firstFile_eq_error_iff]
    exact ⟨fun h => ⟨hrel, h⟩, fun h => h.2⟩
  · rw [if_neg hrel]
    constructor
    · intro h
      cases h
    · intro h
      exact absurd h.1 hrel

/-- The target itself is asked for first. -/
theorem tries_target (isFile : FileTest) (extensions : List String)
    (target : String) : Tries isFile (candidates extensions target) target := by
  unfold candidates
  split <;> exact tries_cons_iff.2 (.inl rfl)

/-- A target that is a file is the answer. -/
theorem resolve_of_isFile_target {extensions : List String}
    {here fromPath specifier : String} (hrel : Specifier.isRelative specifier = true)
    (hfile : isFile (target here fromPath specifier) = .ok true) :
    resolve isFile extensions here fromPath specifier =
      .ok (some (target here fromPath specifier)) := by
  have hfirst : ∀ rest, firstFile isFile (target here fromPath specifier :: rest) =
      .ok (some (target here fromPath specifier)) := by
    intro rest
    unfold firstFile
    rw [hfile]
    rfl
  unfold resolve
  rw [if_pos hrel]
  unfold candidates
  split <;> exact hfirst _

-- ======================================================= names beside

theorem isRelative_beside (name : List Char) :
    Specifier.isRelative (String.ofList ('.' :: '/' :: name)) = true := by
  unfold Specifier.isRelative
  rw [String.toList_ofList]
  rfl

/-- What names a file beside the one that it stands in is in normal
form. -/
theorem normalize_beside {name : List Char} (h : Path.IsName name) :
    Specifier.normalize (String.ofList ('.' :: '/' :: name)) =
      String.ofList ('.' :: '/' :: name) := by
  have hslashed :
      ('.' :: '/' :: name).map (fun c => if c = '\\' then '/' else c) =
        '.' :: '/' :: name := by
    rw [List.map_congr_left (g := id), List.map_id]
    intro c hc
    rw [if_neg]
    · rfl
    · rintro rfl
      simp [h.backslash] at hc
  unfold Specifier.normalize
  dsimp only
  rw [String.toList_ofList, String.toList_ofList, hslashed, h.normalize_dot,
    if_pos]
  · rw [← String.ofList_append]
    rfl
  · simp [h.dot]

/-- A file in the root names one beside it. -/
theorem target_beside {here fromPath : String} {name : List Char}
    (hroot : Path.directory (Path.absolute here fromPath) = "/")
    (h : Path.IsName name) :
    target here fromPath (String.ofList ('.' :: '/' :: name)) =
      String.ofList ('/' :: name) := by
  have hjoin : Path.join "/" (String.ofList ('.' :: '/' :: name)) =
      String.ofList ('/' :: '.' :: '/' :: name) := by
    unfold Path.join Path.isAbsolute
    rw [String.toList_ofList, if_neg (by simp), if_pos (by decide)]
    apply String.toList_injective
    simp
  unfold target
  rw [hroot, normalize_beside h, hjoin, h.normalize_root]

end ModuleAtlas.Resolver
