/-
What a specifier may stand for, and which of it it does.

# The target

A relative specifier is followed from the directory of the file that it
stands in, one segment after the other (`target_eq_write`). That its
normal form is taken first, and that of the whole path again, makes no
difference to where it leads.

# The ranking

The target comes first, whatever it is called. Behind it come the typed
sources that a compiled name stands for, or, if the name has no
extension, the names that it is completed to and then the index files
below it (`Ranking`). The first of these that is a file is the answer,
and without one there is none (`resolve_ranked`).

# The form of an answer

The target is in normal form. What stands for it is as well, as long as
no extension is a way elsewhere: an extension that begins with `//` is
written behind the target as it is (`answer_not_normal`).
-/
import ModuleAtlas.Proofs.Path.Place
import ModuleAtlas.Proofs.Resolve

namespace ModuleAtlas

namespace Specifier

-- ========================================================== specifiers

/-- The specifier names a place from where it stands. -/
def Relative (s : String) : Prop :=
  ∃ rest, s = "./" ++ rest ∨ s = "../" ++ rest

/-- The specifier with slashes for backslashes. -/
def slashed (s : String) : String :=
  String.ofList (s.toList.map fun c => if c = '\\' then '/' else c)

variable {s : String}

theorem exists_append_of_isPrefixOf {front : List Char}
    (h : front.isPrefixOf s.toList = true) :
    ∃ rest, s = String.ofList front ++ rest := by
  obtain ⟨rest, hrest⟩ := List.isPrefixOf_iff_prefix.1 h
  refine ⟨String.ofList rest, ?_⟩
  rw [← String.ofList_append, hrest, String.ofList_toList]

theorem isRelative_iff : isRelative s = true ↔ Relative s := by
  unfold isRelative Relative
  rw [Bool.or_eq_true]
  constructor
  · intro h
    rcases h with h | h
    · obtain ⟨rest, hs⟩ := exists_append_of_isPrefixOf h
      exact ⟨rest, .inl hs⟩
    · obtain ⟨rest, hs⟩ := exists_append_of_isPrefixOf h
      exact ⟨rest, .inr hs⟩
  · rintro ⟨rest, rfl | rfl⟩
    · exact .inl (by simp)
    · exact .inr (by simp)

theorem lead_slashed (h : Relative s) : Path.lead (slashed s) = 0 := by
  obtain ⟨rest, rfl | rfl⟩ := h <;> simp [slashed, Path.lead]

/-- The normal form is that of the path, behind a `./` that the specifier
has in front unless a dot comes first anyway. -/
theorem normalize_cases (s : String) :
    (normalize s = "./" ++ Path.normalize (slashed s) ∧ (∃ rest, slashed s = "./" ++ rest) ∧
      (Path.normalize (slashed s)).toList.head? ≠ some '.') ∨
    (normalize s = Path.normalize (slashed s) ∧ ∀ rest, slashed s = "./" ++ rest →
      (Path.normalize (slashed s)).toList.head? = some '.') := by
  have hnormal : normalize s =
      if ['.', '/'].isPrefixOf (slashed s).toList &&
          (Path.normalize (slashed s)).toList.head? != some '.' then
        "./" ++ Path.normalize (slashed s)
      else Path.normalize (slashed s) := rfl
  rw [hnormal]
  split
  · next h =>
    obtain ⟨hfront, hhead⟩ := Bool.and_eq_true_iff.1 h
    exact .inl ⟨rfl, exists_append_of_isPrefixOf hfront, bne_iff_ne.1 hhead⟩
  · next h =>
    refine .inr ⟨rfl, fun rest hrest => ?_⟩
    by_contra hhead
    refine h (Bool.and_eq_true_iff.2 ⟨?_, bne_iff_ne.2 hhead⟩)
    simp [hrest]

/-- The normal form of a specifier leads where the specifier does, and
is relative itself. -/
theorem follow_normalize (h : Relative s) (place : List String) :
    Path.isAbsolute (normalize s) = false ∧
      Path.follow place (Path.segments (normalize s)) =
        Path.follow place (Path.segments (slashed s)) := by
  have hlead := lead_slashed h
  rw [← Path.follow_normalize hlead]
  rcases normalize_cases s with ⟨hdot, -⟩ | ⟨heq, -⟩
  · have htext : normalize s =
        String.ofList (['.'] ++ '/' :: (Path.normalize (slashed s)).toList) := by
      apply String.toList_injective
      simp [hdot]
    have hfront : Path.segments (String.ofList ['.']) = ["."] := by decide
    refine ⟨by simp [Path.isAbsolute, hdot], ?_⟩
    rw [htext, Path.segments_append_cons, String.ofList_toList, hfront,
      List.singleton_append, Path.follow_cons, Path.step_dot]
  · rw [heq]
    exact ⟨Path.isAbsolute_normalize hlead, rfl⟩

end Specifier

namespace Resolver

open ModuleAtlas.Path (IsPlace IsSegment follow segments write)

variable {isFile : FileTest} {extensions paths place : List String}
    {here fromPath name stem ext specifier : String}

-- ============================================================== targets

/-- The place of the directory of a file. -/
def directoryOf (fromPath : String) : List String :=
  (follow [] (segments fromPath)).dropLast

/-- The place that a specifier in a file means. -/
def placeOf (fromPath specifier : String) : List String :=
  follow (directoryOf fromPath) (segments (Specifier.slashed specifier))

theorem isPlace_directoryOf (fromPath : String) :
    IsPlace (directoryOf fromPath) :=
  (Path.isPlace_follow_segments fromPath).dropLast

theorem isPlace_placeOf (fromPath specifier : String) :
    IsPlace (placeOf fromPath specifier) :=
  (isPlace_directoryOf fromPath).follow fun _ =>
    Path.slash_notMem_of_mem_segments

theorem target_eq_write (hroot : Path.lead fromPath = 1)
    (hrel : Specifier.Relative specifier) :
    target here fromPath specifier = write 1 (placeOf fromPath specifier) := by
  have hplace := Path.isPlace_follow_segments fromPath
  have hdir : Path.directory (Path.absolute here fromPath) =
      write 1 (directoryOf fromPath) := by
    unfold Path.absolute Path.join
    rw [if_pos (Path.isAbsolute_of_lead hroot), Path.normalize_eq_write hroot]
    exact Path.directory_write hplace
  obtain ⟨hnormal, hfollow⟩ :=
    Specifier.follow_normalize hrel (directoryOf fromPath)
  unfold target
  rw [hdir, Path.normalize_join (isPlace_directoryOf fromPath) hnormal, hfollow]
  rfl

-- =========================================================== extensions

/-- The name is a stem with an extension: its last dot and what follows.
Dots that a name starts with begin no extension. -/
structure EndsIn (name stem ext : String) : Prop where
  whole : name = stem ++ ext
  dot : ∃ letters, ext = String.ofList ('.' :: letters) ∧ '.' ∉ letters
  stem : ∃ c ∈ stem.toList, c ≠ '.'

theorem EndsIn.ne_empty (h : EndsIn name stem ext) : ext ≠ "" := by
  obtain ⟨letters, rfl, -⟩ := h.dot
  simp

theorem EndsIn.notMem_stem (h : EndsIn name stem ext) (hname : IsSegment name) :
    '/' ∉ stem.toList := by
  have hslash := hname.slash
  rw [h.whole, String.toList_append, List.mem_append, not_or] at hslash
  exact hslash.1

/-- The path of a place ends in the extension of its last name. -/
theorem splitExtension_write (h : EndsIn name stem ext) (hname : IsSegment name)
    (outer : List String) :
    Path.splitExtension (write 1 (outer ++ [name])) =
      (write 1 (outer ++ [stem]), ext) := by
  have hstem : (stem.toList.all (· == '.')) = false := by
    obtain ⟨c, hc, hdot⟩ := h.stem
    rw [List.all_eq_false]
    exact ⟨c, hc, by simpa using hdot⟩
  obtain ⟨letters, hext, hletters⟩ := h.dot
  have hchars : name.toList = stem.toList ++ '.' :: letters := by
    rw [h.whole, String.toList_append, hext, String.toList_ofList]
  unfold Path.splitExtension
  rw [Path.toList_write_concat, Text.aroundLast_append hname.slash]
  dsimp only
  rw [hchars, Text.aroundLast_append hletters]
  dsimp only
  rw [hstem, if_neg Bool.false_ne_true, ← hext]
  congr 1
  apply String.toList_injective
  rw [String.toList_ofList, Path.toList_write_concat, List.append_assoc]
  rfl

theorem splitExtension_write_bare {outer : List String}
    (h : ∀ stem ext, ¬ EndsIn name stem ext) (hname : IsSegment name) :
    Path.splitExtension (write 1 (outer ++ [name])) =
      (write 1 (outer ++ [name]), "") := by
  unfold Path.splitExtension
  rw [Path.toList_write_concat, Text.aroundLast_append hname.slash]
  dsimp only
  by_cases hdot : '.' ∈ name.toList
  · obtain ⟨before, after, hchars, hafter⟩ := Text.exists_last_of_mem hdot
    have hdots : before.all (· == '.') = true := by
      rw [List.all_eq_true]
      intro c hc
      by_contra hne
      refine h (String.ofList before) (String.ofList ('.' :: after))
        ⟨?_, ⟨after, rfl, hafter⟩, c, ?_, by simpa using hne⟩
      · rw [← String.ofList_append, ← hchars, String.ofList_toList]
      · rw [String.toList_ofList]
        exact hc
    rw [hchars, Text.aroundLast_append hafter]
    dsimp only
    rw [if_pos hdots]
  · rw [Text.aroundLast_of_notMem hdot]

-- ============================================================== rankings

/-- The files that a place may stand for, in the order of preference. -/
inductive Ranking (extensions : List String) :
    (place : List String) → (paths : List String) → Prop
  | script {outer : List String} {name stem : String} :
      EndsIn name stem ".js" →
      Ranking extensions (outer ++ [name])
        [write 1 (outer ++ [name]), write 1 (outer ++ [stem ++ ".ts"]),
          write 1 (outer ++ [stem ++ ".tsx"])]
  | markup {outer : List String} {name stem : String} :
      EndsIn name stem ".jsx" →
      Ranking extensions (outer ++ [name])
        [write 1 (outer ++ [name]), write 1 (outer ++ [stem ++ ".tsx"]),
          write 1 (outer ++ [stem ++ ".ts"])]
  | exact {outer : List String} {name stem ext : String} :
      EndsIn name stem ext → ext ≠ ".js" → ext ≠ ".jsx" →
      Ranking extensions (outer ++ [name]) [write 1 (outer ++ [name])]
  | bare {place : List String} :
      (∀ outer name, place = outer ++ [name] →
        ∀ stem ext, ¬ EndsIn name stem ext) →
      Ranking extensions place
        (write 1 place :: (extensions.map (fun ext => write 1 place ++ ext) ++
          extensions.map fun ext => write 1 (place ++ ["index" ++ ext])))

theorem candidates_of_extension {target stem ext : String}
    (h : Path.splitExtension target = (stem, ext)) (hext : ext ≠ "") :
    candidates extensions target =
      target :: (SourceName.typedExtensions ext).map (stem ++ ·) := by
  unfold candidates
  rw [h]
  split
  · next heq => exact absurd (Prod.mk.inj heq).2 hext
  · next heq =>
    obtain ⟨rfl, rfl⟩ := Prod.mk.inj heq
    rfl

theorem candidates_of_bare (hplace : IsPlace place)
    (h : Path.splitExtension (write 1 place) = (write 1 place, "")) :
    candidates extensions (write 1 place) =
      write 1 place :: (extensions.map (fun ext => write 1 place ++ ext) ++
        extensions.map fun ext => write 1 (place ++ ["index" ++ ext])) := by
  have hindex : ∀ ext, Path.join (write 1 place) ("index" ++ ext) =
      write 1 (place ++ ["index" ++ ext]) := fun ext =>
    Path.join_write hplace (by simp [Path.isAbsolute])
  unfold candidates
  rw [h]
  simp only [hindex]

theorem splitExtension_of_bare (hplace : IsPlace place)
    (h : ∀ outer name, place = outer ++ [name] →
      ∀ stem ext, ¬ EndsIn name stem ext) :
    Path.splitExtension (write 1 place) = (write 1 place, "") := by
  induction place using List.reverseRecOn with
  | nil => decide
  | append_singleton outer name _ =>
      exact splitExtension_write_bare (h outer name rfl) (hplace name (by simp))

/-- A ranking lists the candidates. -/
theorem Ranking.eq_candidates (hplace : IsPlace place)
    (h : Ranking extensions place paths) :
    paths = candidates extensions (write 1 place) := by
  cases h with
  | script hend =>
      rw [candidates_of_extension
        (splitExtension_write hend (hplace _ (by simp)) _) hend.ne_empty]
      simp [SourceName.typedExtensions, Path.write_concat_append]
  | markup hend =>
      rw [candidates_of_extension
        (splitExtension_write hend (hplace _ (by simp)) _) hend.ne_empty]
      simp [SourceName.typedExtensions, Path.write_concat_append]
  | exact hend hjs hjsx =>
      rw [candidates_of_extension
        (splitExtension_write hend (hplace _ (by simp)) _) hend.ne_empty]
      simp [SourceName.typedExtensions]
  | bare hbare =>
      exact (candidates_of_bare hplace (splitExtension_of_bare hplace hbare)).symm

/-- Every place has a ranking. -/
theorem exists_ranking (extensions place : List String) :
    ∃ paths, Ranking extensions place paths := by
  by_cases h : ∃ outer name stem ext, place = outer ++ [name] ∧ EndsIn name stem ext
  · obtain ⟨outer, name, stem, ext, rfl, hend⟩ := h
    by_cases hjs : ext = ".js"
    · subst hjs
      exact ⟨_, .script hend⟩
    · by_cases hjsx : ext = ".jsx"
      · subst hjsx
        exact ⟨_, .markup hend⟩
      · exact ⟨_, .exact hend hjs hjsx⟩
  · exact ⟨_, .bare fun outer name hplace stem ext hend =>
      h ⟨outer, name, stem, ext, hplace, hend⟩⟩

theorem ranking_iff (hplace : IsPlace place) :
    Ranking extensions place paths ↔
      paths = candidates extensions (write 1 place) := by
  refine ⟨fun h => h.eq_candidates hplace, ?_⟩
  rintro rfl
  obtain ⟨paths, h⟩ := exists_ranking extensions place
  rw [← h.eq_candidates hplace]
  exact h

-- ========================================================= normal forms

/-- The extension is part of the name that it is written behind. -/
structure IsPlain (ext : String) : Prop where
  slash : '/' ∉ ext.toList
  ne_dot : ext ≠ "."
  ne_dots : ext ≠ ".."

theorem isSegment_of_mem {s : String} {c : Char} (hc : c ∈ s.toList)
    (hdot : c ≠ '.') (hslash : '/' ∉ s.toList) : IsSegment s where
  ne_empty := by
    rintro rfl
    simp at hc
  ne_dot := by
    rintro rfl
    simp [hdot] at hc
  ne_dots := by
    rintro rfl
    simp [hdot] at hc
  slash := hslash

theorem EndsIn.isSegment (h : EndsIn name stem ext) (hname : IsSegment name)
    {typed : String} (htyped : '/' ∉ typed.toList) :
    IsSegment (stem ++ typed) := by
  obtain ⟨c, hc, hdot⟩ := h.stem
  refine isSegment_of_mem (c := c) ?_ hdot ?_
  · rw [String.toList_append]
    exact List.mem_append_left _ hc
  · rw [String.toList_append, List.mem_append, not_or]
    exact ⟨h.notMem_stem hname, htyped⟩

/-- A name with more behind it is no way elsewhere. -/
theorem isSegment_append (hname : IsSegment name) (hext : '/' ∉ ext.toList) :
    IsSegment (name ++ ext) := by
  have hne : ∀ s : String, s.toList <+: ['.', '.'] → name ++ ext ≠ s := by
    rintro s hs rfl
    have hfront : name.toList <+: ['.', '.'] :=
      List.IsPrefix.trans ⟨ext.toList, by simp⟩ hs
    simp only [List.prefix_cons_iff, List.prefix_nil] at hfront
    rcases hfront with h | ⟨_, h, rfl | ⟨_, rfl, rfl⟩⟩
    · exact hname.ne_empty (String.toList_injective h)
    · exact hname.ne_dot (String.toList_injective h)
    · exact hname.ne_dots (String.toList_injective h)
  refine ⟨hne "" (by decide), hne "." (by decide), hne ".." (by decide), ?_⟩
  rw [String.toList_append, List.mem_append, not_or]
  exact ⟨hname.slash, hext⟩

theorem normalize_concat (hplace : IsPlace place) (hname : IsSegment name) :
    Path.normalize (write 1 (place ++ [name])) = write 1 (place ++ [name]) :=
  Path.normalize_write (hplace.concat hname)

/-- An extension that is plain makes a name of the root's. -/
theorem normalize_root_append (h : IsPlain ext) :
    Path.normalize ("/" ++ ext) = "/" ++ ext := by
  have hroot : "/" ++ ext = if ext = "" then write 1 [] else write 1 ([] ++ [ext]) := by
    apply String.toList_injective
    split
    · next hempty =>
      subst hempty
      rfl
    · rw [Path.toList_write_concat]
      simp [Path.wayDown]
  rw [hroot]
  split
  · exact Path.normalize_write Path.isPlace_nil
  · next hempty =>
    exact normalize_concat Path.isPlace_nil
      ⟨hempty, h.ne_dot, h.ne_dots, h.slash⟩

/-- What a name that is cut before its extension stands for is in normal
form. -/
theorem EndsIn.normalize_eq {outer : List String} (h : EndsIn name stem ext)
    (hplace : IsPlace (outer ++ [name])) {typed : String}
    (htyped : '/' ∉ typed.toList) :
    Path.normalize (write 1 (outer ++ [stem ++ typed])) =
      write 1 (outer ++ [stem ++ typed]) :=
  normalize_concat (fun s hs => hplace s (List.mem_append_left _ hs))
    (h.isSegment (hplace name (by simp)) htyped)

/-- With plain extensions, all that a place stands for is in normal
form. -/
theorem Ranking.normalize_eq (h : Ranking extensions place paths)
    (hplace : IsPlace place) (hplain : ∀ ext ∈ extensions, IsPlain ext) :
    ∀ q ∈ paths, Path.normalize q = q := by
  cases h with
  | script hend =>
      simp [Path.normalize_write hplace, hend.normalize_eq hplace]
  | markup hend =>
      simp [Path.normalize_write hplace, hend.normalize_eq hplace]
  | exact _ _ _ => simp [Path.normalize_write hplace]
  | bare hbare =>
      rw [List.forall_mem_cons, List.forall_mem_append, List.forall_mem_map,
        List.forall_mem_map]
      refine ⟨Path.normalize_write hplace, fun ext hext => ?_, fun ext hext => ?_⟩
      · have hext := hplain ext hext
        induction place using List.reverseRecOn with
        | nil => exact normalize_root_append hext
        | append_singleton outer name _ =>
            have houter : IsPlace outer := fun s hs => hplace s (by simp [hs])
            rw [Path.write_concat_append]
            exact normalize_concat houter
              (isSegment_append (hplace name (by simp)) hext.slash)
      · refine normalize_concat hplace ?_
        refine isSegment_of_mem (c := 'i') (by simp) (by decide) ?_
        rw [String.toList_append, List.mem_append, not_or]
        exact ⟨by decide, (hplain ext hext).slash⟩

theorem isAbsolute_append {path : String} (h : Path.isAbsolute path = true)
    (more : String) : Path.isAbsolute (path ++ more) = true := by
  unfold Path.isAbsolute at h ⊢
  rw [beq_iff_eq] at h ⊢
  rw [String.toList_append, List.head?_append, h]
  rfl

/-- All that a place stands for is an absolute path. -/
theorem Ranking.isAbsolute (h : Ranking extensions place paths) :
    ∀ q ∈ paths, Path.isAbsolute q = true := by
  cases h with
  | script _ => simp [Path.isAbsolute_write]
  | markup _ => simp [Path.isAbsolute_write]
  | exact _ _ _ => simp [Path.isAbsolute_write]
  | bare _ =>
      rw [List.forall_mem_cons, List.forall_mem_append, List.forall_mem_map,
        List.forall_mem_map]
      exact ⟨Path.isAbsolute_write 0 _,
        fun _ _ => isAbsolute_append (Path.isAbsolute_write 0 _) _,
        fun _ _ => Path.isAbsolute_write 0 _⟩

-- ============================================================== answers

/-- Where every question is answered, the answer to a search is the
first path that is a file. -/
theorem firstFile_eq_find? {p : String → Bool}
    (h : ∀ q ∈ paths, isFile q = .ok (p q)) :
    firstFile isFile paths = .ok (paths.find? p) := by
  induction paths with
  | nil => rfl
  | cons path paths ih =>
      rw [List.forall_mem_cons] at h
      unfold firstFile
      rw [h.1, List.find?_cons]
      cases p path with
      | true => rfl
      | false => exact ih h.2

/-- A specifier that is not relative names nothing. A relative one names
the first file of the ranking of its place, and nothing if there is none
among them. -/
theorem resolve_ranked (isFile : FileTest) {extensions : List String}
    (hsome : extensions ≠ []) (here : String) {fromPath : String}
    (hroot : Path.lead fromPath = 1) (specifier : String) :
    (¬ Specifier.Relative specifier →
      resolve isFile (extensionsOr extensions) here fromPath specifier =
        .ok none) ∧
    (Specifier.Relative specifier →
      ∃ ranking,
        (∀ paths, Ranking extensions (placeOf fromPath specifier) paths ↔
          paths = ranking) ∧
        ∀ p : String → Bool, (∀ q ∈ ranking, isFile q = .ok (p q)) →
          resolve isFile (extensionsOr extensions) here fromPath specifier =
              .ok (ranking.find? p) ∧
          ∀ answer, ranking.find? p = some answer →
            p answer = true ∧ Path.isAbsolute answer = true ∧
              ((∀ ext ∈ extensions, IsPlain ext) →
                Path.normalize answer = answer)) := by
  have hextensions : extensionsOr extensions = extensions := by
    unfold extensionsOr
    rw [if_neg]
    simpa using hsome
  have hplace := isPlace_placeOf fromPath specifier
  rw [hextensions]
  unfold resolve
  constructor
  · intro hrel
    rw [if_neg]
    rwa [Specifier.isRelative_iff]
  · intro hrel
    refine ⟨_, fun _ => ranking_iff hplace, fun p hp => ⟨?_, ?_⟩⟩
    · rw [if_pos (Specifier.isRelative_iff.2 hrel), target_eq_write hroot hrel]
      exact firstFile_eq_find? hp
    · intro answer hanswer
      have hranking : Ranking extensions (placeOf fromPath specifier) _ :=
        (ranking_iff hplace).2 rfl
      have hmem := List.mem_of_find?_eq_some hanswer
      exact ⟨List.find?_some hanswer, hranking.isAbsolute answer hmem,
        fun hplain => hranking.normalize_eq hplace hplain answer hmem⟩

/-- Backslashes and detours on both sides: still, the file beside is
found. -/
theorem resolve_ranked_detour :
    [".ts", ".tsx"] ≠ [] ∧ Path.lead "/r/sub/../a.ts" = 1 ∧
      Specifier.Relative "./lib\\..//x" ∧
      resolve (fun q => .ok (q == "/r/x.tsx")) (extensionsOr [".ts", ".tsx"]) "/"
          "/r/sub/../a.ts" "./lib\\..//x" =
        .ok (some "/r/x.tsx") := by
  have hsome : [".ts", ".tsx"] ≠ [] := by decide
  have hroot : Path.lead "/r/sub/../a.ts" = 1 := by decide
  have hrel : Specifier.Relative "./lib\\..//x" := ⟨"lib\\..//x", .inl (by decide)⟩
  obtain ⟨ranking, hranking, hanswer⟩ :=
    (resolve_ranked (fun q => .ok (q == "/r/x.tsx")) hsome "/" hroot
      "./lib\\..//x").2 hrel
  have hfirst : ranking.find? (· == "/r/x.tsx") = some "/r/x.tsx" := by
    rw [← (hranking _).1 ((ranking_iff (isPlace_placeOf _ _)).2 rfl)]
    decide
  refine ⟨hsome, hroot, hrel, ?_⟩
  rw [(hanswer (· == "/r/x.tsx") fun _ _ => rfl).1, hfirst]

/-- An extension is written behind the target as it is, so an answer need
not be in normal form. -/
theorem answer_not_normal :
    ¬ ∀ (p : String → Bool) (extensions : List String)
        (here fromPath specifier : String),
      extensions ≠ [] → Path.lead fromPath = 1 → ∀ answer,
        resolve (fun q => .ok (p q)) (extensionsOr extensions) here fromPath
            specifier = .ok (some answer) →
          Path.normalize answer = answer := by
  intro h
  have hanswer := h (· == "/r/lib//b.ts") ["//b.ts"] "/" "/r/a.ts" "./lib"
    (by decide) (by decide) "/r/lib//b.ts" (by decide)
  revert hanswer
  decide

end Resolver

end ModuleAtlas
