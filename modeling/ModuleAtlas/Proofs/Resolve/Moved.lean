/-
Projects that are moved.

# What a folder tells

A project lies in a folder. If a specifier in one of its files leads to
what is below the folder, all that it may stand for is below it, too, and
is found by looking behind the folder (`target_below`,
`candidates_append`). So where the folder lies and what it is called makes
no difference: in a copy of the project, the specifier names the copy of
the file that it names in the original (`resolve_moved`).

# Where its name counts

A specifier may lead to the folder itself. Then the name of the folder is
a file name like any other, and an extension decides what it stands for:
with one there is no index file (`resolve_moved_renamed`), and a compiled
name stands for a typed source beside the folder, outside the project
(`not_answersAlike_source`). Folders are compared as targets for this
reason (`AlikeAsTargets`).
-/
import ModuleAtlas.Proofs.Path.Folder
import ModuleAtlas.Proofs.Resolve.Ranking

namespace ModuleAtlas.Resolver

open ModuleAtlas.Path (IsFolder IsPlace Leads Stays down follow segments)

variable {isFile isFile' : FileTest} {extensions paths : List String}
    {dir dir' file specifier target : String} {inside : List String}

-- ============================================================= searches

/-- To look for copies is to copy what is looked for. -/
theorem firstFile_map (isFile : FileTest) (copy : String → String) (paths : List String) :
    firstFile isFile (paths.map copy) =
      (firstFile (fun path => isFile (copy path)) paths).map (Option.map copy) := by
  induction paths with
  | nil => rfl
  | cons path paths ih =>
      rw [List.map_cons]
      unfold firstFile
      rw [ih]
      cases isFile (copy path) with
      | error e => rfl
      | ok found => cases found <;> rfl

/-- What is no file may as well not be looked for. -/
theorem firstFile_append_of_false {later : List String}
    (h : ∀ path ∈ later, isFile path = .ok false) :
    firstFile isFile (paths ++ later) = firstFile isFile paths := by
  induction paths with
  | nil =>
      induction later with
      | nil => rfl
      | cons path later ih =>
          rw [List.forall_mem_cons] at h
          rw [List.nil_append] at ih ⊢
          unfold firstFile
          rw [h.1]
          exact ih h.2
  | cons path paths ih =>
      rw [List.cons_append]
      unfold firstFile
      rw [ih]

theorem exists_firstFile_eq_ok (h : ∀ path, ∃ found, isFile path = .ok found)
    (paths : List String) : ∃ answer, firstFile isFile paths = .ok answer := by
  cases hsearch : firstFile isFile paths with
  | ok answer => exact ⟨answer, rfl⟩
  | error e =>
      obtain ⟨path, -, hfail⟩ := firstFile_eq_error_iff.1 hsearch
      obtain ⟨found, hfound⟩ := h path
      rw [hfound] at hfail
      cases hfail

-- ============================================================== targets

/-- The file lies below a folder, and the specifier leads from its
directory to below the folder or to the folder itself, without leaving it
on the way. -/
structure StaysInside (file specifier : String) : Prop where
  place : Stays [] (segments file)
  below : follow [] (segments file) ≠ []
  way : Stays (directoryOf file) (segments (Specifier.slashed specifier))

/-- Where the specifier leads is told without the folder. -/
theorem target_below (hdir : IsFolder dir) (hrel : Specifier.Relative specifier)
    (h : StaysInside file specifier) (here : String) :
    Resolver.target here (dir ++ "/" ++ file) specifier =
      dir ++ down (placeOf file specifier) := by
  obtain ⟨hstays, hbelow, hway⟩ := h
  have hplace := Path.isPlace_follow_segments file
  have habsolute : Path.absolute here (dir ++ "/" ++ file) =
      dir ++ down (follow [] (segments file)) := by
    unfold Path.absolute
    rw [String.append_assoc, Path.join_of_isAbsolute (isAbsolute_append hdir.absolute _),
      ← String.append_assoc]
    have hnormal := hdir.normalize_eq Path.isPlace_nil hstays.leads
    rwa [Path.down_nil, String.append_empty] at hnormal
  have hdirectory : Path.directory (Path.absolute here (dir ++ "/" ++ file)) =
      dir ++ down (directoryOf file) := by
    have hname := (hplace _ (List.getLast_mem hbelow)).slash
    rw [habsolute, ← List.dropLast_concat_getLast hbelow, Path.down_concat,
      ← String.append_assoc, ← String.append_assoc]
    exact (hdir.named (isPlace_directoryOf file)).directory_eq hname
  have hleads : Leads (directoryOf file) (segments (Specifier.normalize specifier))
      (placeOf file specifier) := fun above =>
    (Specifier.follow_normalize hrel (above ++ directoryOf file)).2.trans (hway.leads above)
  unfold Resolver.target
  rw [hdirectory, (hdir.named (isPlace_directoryOf file)).join_eq
    (Specifier.follow_normalize hrel []).1]
  exact hdir.normalize_eq (isPlace_directoryOf file) hleads

-- =========================================================== candidates

/-- What a target without an extension may be completed by. -/
def completions (extensions : List String) : List String :=
  "" :: (extensions ++ extensions.map ("/index" ++ ·))

theorem candidates_of_named (h : Path.Named target)
    (hbare : (Path.splitExtension target).2 = "") :
    candidates extensions target = (completions extensions).map (target ++ ·) := by
  have hindex : ∀ ext, Path.join target ("index" ++ ext) = target ++ ("/index" ++ ext) := by
    intro ext
    have hslash : "/index" ++ ext = "/" ++ ("index" ++ ext) := by
      rw [← String.append_assoc]
      rfl
    rw [h.join_eq (by simp [Path.isAbsolute]), hslash, String.append_assoc]
  unfold candidates completions
  split
  · simp [hindex]
  · next hext heq =>
    rw [heq] at hbare
    exact absurd hbare hext

/-- A target that ends in a name stands for the same from everywhere. -/
theorem candidates_append (h : Path.Named target) (front : String) :
    candidates extensions (front ++ target) =
      (candidates extensions target).map (front ++ ·) := by
  have hsplit := h.splitExtension_append front
  by_cases hext : (Path.splitExtension target).2 = ""
  · have hext' : (Path.splitExtension (front ++ target)).2 = "" := by
      rw [hsplit, hext]
    rw [candidates_of_named h hext, candidates_of_named (h.append front) hext', List.map_map]
    simp [Function.comp_def, String.append_assoc]
  · rw [candidates_of_extension hsplit hext, candidates_of_extension (Prod.eta _).symm hext,
      List.map_cons, List.map_map]
    simp only [Function.comp_def, String.append_assoc]

/-- Taken for a compiled file, the folder stands for no typed source
beside it. -/
def StandsAlone (isFile : FileTest) (dir : String) : Prop :=
  ∀ typed ∈ SourceName.typedExtensions (Path.splitExtension dir).2,
    isFile ((Path.splitExtension dir).1 ++ typed) = .ok false

instance (isFile : FileTest) (dir : String) : Decidable (StandsAlone isFile dir) :=
  inferInstanceAs (Decidable (∀ typed ∈ SourceName.typedExtensions (Path.splitExtension dir).2, _))

/-- As targets, both folders stand for their index files or both do not,
and neither stands for a file outside. -/
structure AlikeAsTargets (isFile : FileTest) (dir : String) (isFile' : FileTest)
    (dir' : String) : Prop where
  bare : (Path.splitExtension dir).2 = "" ↔ (Path.splitExtension dir').2 = ""
  alone : StandsAlone isFile dir
  alone' : StandsAlone isFile' dir'

/-- A name with an extension stands for itself, if there is no source that
it is compiled from. -/
theorem firstFile_candidates_of_alone (hext : (Path.splitExtension dir).2 ≠ "")
    (halone : StandsAlone isFile dir) :
    firstFile isFile (candidates extensions dir) = firstFile isFile ([""].map (dir ++ ·)) := by
  have hself : dir :: (SourceName.typedExtensions (Path.splitExtension dir).2).map
      ((Path.splitExtension dir).1 ++ ·) = [""].map (dir ++ ·) ++
        (SourceName.typedExtensions (Path.splitExtension dir).2).map
          ((Path.splitExtension dir).1 ++ ·) := by
    simp
  rw [candidates_of_extension (Prod.eta _).symm hext, hself]
  exact firstFile_append_of_false (List.forall_mem_map.2 halone)

/-- What is found for a target below a folder, or for the folder, is found
among the same candidates below any other folder. -/
theorem exists_candidates (extensions : List String) (hdir : IsFolder dir)
    (hdir' : IsFolder dir') (hinside : IsPlace inside)
    (halike : inside = [] → AlikeAsTargets isFile dir isFile' dir') :
    ∃ paths : List String,
      firstFile isFile (candidates extensions (dir ++ down inside)) =
        firstFile isFile (paths.map (dir ++ ·)) ∧
      firstFile isFile' (candidates extensions (dir' ++ down inside)) =
        firstFile isFile' (paths.map (dir' ++ ·)) := by
  by_cases hne : inside = []
  · replace halike := halike hne
    subst hne
    have hnamed := hdir.named hinside
    have hnamed' := hdir'.named hinside
    simp only [Path.down_nil, String.append_empty] at hnamed hnamed' ⊢
    by_cases hbare : (Path.splitExtension dir).2 = ""
    · refine ⟨completions extensions, ?_, ?_⟩
      · rw [candidates_of_named hnamed hbare]
      · rw [candidates_of_named hnamed' (halike.bare.1 hbare)]
    · exact ⟨[""], firstFile_candidates_of_alone hbare halike.alone,
        firstFile_candidates_of_alone (mt halike.bare.2 hbare) halike.alone'⟩
  · have hnamed := Path.named_down hinside hne
    exact ⟨candidates extensions (down inside), by rw [candidates_append hnamed],
      by rw [candidates_append hnamed]⟩

-- ============================================================== answers

theorem append_beq {whole rest : String} (h : dir ++ rest = whole) (x : String) :
    (dir ++ x == whole) = (x == rest) := by
  rw [← h, Bool.eq_iff_iff, beq_iff_eq, beq_iff_eq, String.append_right_inj]

/-- The specifier names the same file in both folders, or none in both.
Where the tests tell of every path below whether it is a file, there is
such an answer. -/
def AnswersAlike (isFile : FileTest) (dir : String) (isFile' : FileTest)
    (dir' file specifier : String) : Prop :=
  ∀ (extensions : List String) (here here' : String),
    ∃ answer : Except SystemError (Option String),
      resolve isFile (extensionsOr extensions) here (dir ++ "/" ++ file) specifier =
          answer.map (Option.map (dir ++ ·)) ∧
        resolve isFile' (extensionsOr extensions) here' (dir' ++ "/" ++ file) specifier =
          answer.map (Option.map (dir' ++ ·)) ∧
        ((∀ x, ∃ found, isFile (dir ++ x) = .ok found) → ∃ x, answer = .ok x)

/-- In a project that is moved, a specifier names what it did, as long as
it leads to below the folder of the project, or leads to the folder itself
and both folders are alike as targets. -/
theorem resolve_moved (hdir : IsFolder dir) (hdir' : IsFolder dir')
    (hfiles : ∀ x, isFile (dir ++ x) = isFile' (dir' ++ x))
    (hrel : Specifier.Relative specifier) (hinside : StaysInside file specifier)
    (halike : placeOf file specifier = [] → AlikeAsTargets isFile dir isFile' dir') :
    AnswersAlike isFile dir isFile' dir' file specifier := by
  intro extensions here here'
  obtain ⟨paths, hfirst, hfirst'⟩ := exists_candidates (extensionsOr extensions) hdir hdir'
    (isPlace_placeOf file specifier) halike
  have hsame : (fun x => isFile' (dir' ++ x)) = fun x => isFile (dir ++ x) :=
    funext fun x => (hfiles x).symm
  refine ⟨firstFile (fun x => isFile (dir ++ x)) paths, ?_, ?_,
    fun hanswers => exists_firstFile_eq_ok hanswers paths⟩
  · unfold resolve
    rw [if_pos (Specifier.isRelative_iff.2 hrel), target_below hdir hrel hinside, hfirst,
      firstFile_map]
  · unfold resolve
    rw [if_pos (Specifier.isRelative_iff.2 hrel), target_below hdir' hrel hinside, hfirst',
      firstFile_map, hsame]

/-- From one folder to another, with another root even: the index file of
the folder is found from below. -/
theorem resolve_moved_up :
    let isFile : FileTest := fun path => .ok (path == "/old/index.tsx")
    let isFile' : FileTest := fun path => .ok (path == "//srv/new/index.tsx")
    IsFolder "/old" ∧ IsFolder "//srv/new" ∧
      (∀ x, isFile ("/old" ++ x) = isFile' ("//srv/new" ++ x)) ∧
      Specifier.Relative "../" ∧ StaysInside "src/x.ts" "../" ∧
      AlikeAsTargets isFile "/old" isFile' "//srv/new" ∧
      ∃ x, resolve isFile (extensionsOr []) "/" "/old/src/x.ts" "../" =
          .ok (some ("/old" ++ x)) ∧
        resolve isFile' (extensionsOr []) "/" "//srv/new/src/x.ts" "../" =
          .ok (some ("//srv/new" ++ x)) := by
  intro isFile isFile'
  have hdir : IsFolder "/old" := ⟨by decide, by decide, by decide, by decide⟩
  have hdir' : IsFolder "//srv/new" := ⟨by decide, by decide, by decide, by decide⟩
  have hfiles : ∀ x, isFile ("/old" ++ x) = isFile' ("//srv/new" ++ x) := by
    intro x
    have hold : "/old" ++ "/index.tsx" = "/old/index.tsx" := by decide
    have hnew : "//srv/new" ++ "/index.tsx" = "//srv/new/index.tsx" := by decide
    exact congrArg Except.ok ((append_beq hold x).trans (append_beq hnew x).symm)
  have hrel : Specifier.Relative "../" := ⟨"", .inr rfl⟩
  have hinside : StaysInside "src/x.ts" "../" := ⟨by decide, by decide, by decide⟩
  have halike : AlikeAsTargets isFile "/old" isFile' "//srv/new" :=
    ⟨by decide, by decide, by decide⟩
  obtain ⟨answer, h, h', hanswer⟩ :=
    resolve_moved hdir hdir' hfiles hrel hinside (fun _ => halike) [] "/" "/"
  obtain ⟨x, rfl⟩ := hanswer fun x => ⟨_, rfl⟩
  have hfile : "/old" ++ "/" ++ "src/x.ts" = "/old/src/x.ts" := by decide
  have hfile' : "//srv/new" ++ "/" ++ "src/x.ts" = "//srv/new/src/x.ts" := by decide
  rw [hfile] at h
  rw [hfile'] at h'
  have hfound : resolve isFile (extensionsOr []) "/" "/old/src/x.ts" "../" =
      .ok (some "/old/index.tsx") := by decide
  cases x with
  | none => cases hfound.symm.trans h
  | some x => exact ⟨hdir, hdir', hfiles, hrel, hinside, halike, x, h, h'⟩

-- ============================================ folders that are not alike

/-- One folder has an answer and the other none. -/
theorem not_answersAlike_of_none {path path' found : String}
    (hpath : dir ++ "/" ++ file = path) (hpath' : dir' ++ "/" ++ file = path')
    (hfound : resolve isFile (extensionsOr []) "/" path specifier = .ok (some found))
    (hnone : resolve isFile' (extensionsOr []) "/" path' specifier = .ok none) :
    ¬ AnswersAlike isFile dir isFile' dir' file specifier := by
  intro h
  obtain ⟨answer, hanswer, hanswer', -⟩ := h [] "/" "/"
  rw [hpath, hfound] at hanswer
  rw [hpath', hnone] at hanswer'
  cases answer with
  | error e => cases hanswer
  | ok x => cases x with
    | none => cases hanswer
    | some x => cases hanswer'

/-- Called `old.v2`, the folder is taken for a file of that name, and its
index file is not looked for. -/
theorem resolve_moved_renamed :
    ¬ ∀ (p p' : String → Bool) (dir dir' file specifier : String),
      Path.isAbsolute dir = true → Path.normalize dir = dir → dir ≠ "/" →
      Path.isAbsolute dir' = true → Path.normalize dir' = dir' → dir' ≠ "/" →
      (∀ x, p (dir ++ x) = p' (dir' ++ x)) →
      Specifier.Relative specifier → StaysInside file specifier →
        AnswersAlike (fun path => .ok (p path)) dir (fun path => .ok (p' path)) dir'
          file specifier := by
  intro h
  have hfiles : ∀ x, ("/new" ++ x == "/new/index.ts") =
      ("/old.v2" ++ x == "/old.v2/index.ts") := by
    intro x
    have hnew : "/new" ++ "/index.ts" = "/new/index.ts" := by decide
    have hold : "/old.v2" ++ "/index.ts" = "/old.v2/index.ts" := by decide
    rw [append_beq hnew, append_beq hold]
  have halike := h (· == "/new/index.ts") (· == "/old.v2/index.ts") "/new" "/old.v2" "a.ts" "./"
    (by decide) (by decide) (by decide) (by decide) (by decide) (by decide) hfiles
    ⟨"", .inl rfl⟩ ⟨by decide, by decide, by decide⟩
  have hfound : resolve (fun path => .ok (path == "/new/index.ts")) (extensionsOr []) "/"
      "/new/a.ts" "./" = .ok (some "/new/index.ts") := by decide
  have hnone : resolve (fun path => .ok (path == "/old.v2/index.ts")) (extensionsOr []) "/"
      "/old.v2/a.ts" "./" = .ok none := by decide
  exact not_answersAlike_of_none (by decide) (by decide) hfound hnone halike

/-- A folder that is called as a compiled file stands for the source of it
beside the folder, where the project ends. -/
theorem not_answersAlike_source :
    ¬ AnswersAlike (fun path => .ok (path == "/lib.ts")) "/lib.js"
      (fun path => .ok (path == "/lib.ts")) "/lib.js" "a.ts" "./" := by
  intro h
  obtain ⟨answer, hsome, -⟩ := h [] "/" "/"
  have hpath : "/lib.js" ++ "/" ++ "a.ts" = "/lib.js/a.ts" := by decide
  have hfound : resolve (fun path => .ok (path == "/lib.ts")) (extensionsOr []) "/"
      "/lib.js/a.ts" "./" = .ok (some "/lib.ts") := by decide
  rw [hpath, hfound] at hsome
  cases answer with
  | error e => cases hsome
  | ok x => cases x with
    | none => cases hsome
    | some x =>
        have htext := congrArg String.toList (Option.some.inj (Except.ok.inj hsome))
        simp at htext

/-- The root of two slashes is no folder either: with one more behind them
they are one. -/
theorem not_answersAlike_root :
    ¬ AnswersAlike (fun path => .ok (path == "/new/b.ts")) "/new"
      (fun path => .ok (path == "///b.ts")) "//" "a.ts" "./b" := by
  have hfound : resolve (fun path => .ok (path == "/new/b.ts")) (extensionsOr []) "/"
      "/new/a.ts" "./b" = .ok (some "/new/b.ts") := by decide
  have hnone : resolve (fun path => .ok (path == "///b.ts")) (extensionsOr []) "/"
      "///a.ts" "./b" = .ok none := by decide
  exact not_answersAlike_of_none (by decide) (by decide) hfound hnone

end ModuleAtlas.Resolver
