/-
Whether what was listed is what is read.

# Two forms of a path

A scan goes by the path of its root as it is spelled: a `..` in it leaves
the directory that was come to. What is listed is then read under its
normal form, in which a `..` takes back the name before it. So the file
that is read lies the same way below the normal form of the root
(`Path.normalize_below`), and is the one that was listed only if this way
leads to the same place from there.

# Straight roots

It does if the root takes no link back (`FileTree.Straight`). If it does
take one back, the normal form may be that of another directory. In
`forked`, the root `/l/..` is the directory `a`, since the link `l` leads
below it, but its normal form is the top. There is no file `x.ts` at the
top, so the one in `a` is listed and then missing.
-/
import ModuleAtlas.Proofs.FileTree.Straight
import ModuleAtlas.Proofs.Reading
import ModuleAtlas.Proofs.Scan

namespace ModuleAtlas

namespace Reading

variable {grammar : Grammar} {t : FileTree} {extensions : List String} {path : String}

/-- Only what is not there is missing. -/
theorem exists_noFile_iff :
    (∃ q, ofFile grammar t extensions path = .error (.noFile q)) ↔
      t.leadsSomewhere (Path.absolute t.here path) = false := by
  unfold ofFile
  dsimp only
  constructor
  · intro h
    obtain ⟨q, h⟩ := h
    cases hleads : t.leadsSomewhere (Path.absolute t.here path) with
    | false => rfl
    | true =>
        rw [hleads] at h
        rcases Success.bind_eq_error_iff.1 h with hread | ⟨source, -, h⟩
        · obtain ⟨_, -, heq⟩ := Success.mapError_eq_error_iff.1 hread
          cases heq
        · split at h
          · cases h
          · obtain ⟨_, -, heq⟩ := Success.mapError_eq_error_iff.1 h
            cases heq
  · intro hmissing
    rw [hmissing]
    exact ⟨_, rfl⟩

/-- What is read under the path is made of these bytes. -/
def IsMadeOf (grammar : Grammar) (t : FileTree) (extensions : List String) (path : String)
    (source : Bytes) : Prop :=
  ∀ r, ofFile grammar t extensions path = .ok r →
    ofTree t.isFile extensions t.here (Path.absolute t.here path) source
      (grammar (dialect (Path.absolute t.here path)) source) = .ok r

theorem isMadeOf_of_look {source : Bytes}
    (h : t.look (Path.absolute t.here path) = .ok (some (.file source))) :
    IsMadeOf grammar t extensions path source := by
  intro r hr
  obtain ⟨-, source', hread, -, htree⟩ := ofFile_eq_ok_iff.1 hr
  rw [FileTree.read_of_look h] at hread
  rwa [Except.ok.inj hread]

end Reading

namespace Survey

variable {t : FileTree} {w : Scan.Wanted} {maxDepth : Int} {root path : String}
    {paths : List String}

-- ========================================================== what is listed

/-- What is listed lies at the end of names that lead down from the root,
and is a file. -/
theorem exists_file_of_mem_sourceFiles (hproper : t.top.Proper)
    (hhere : Path.isAbsolute t.here = true)
    (h : Scan.sourceFiles t w maxDepth root = .ok paths) (hpath : path ∈ paths)
    (hnul : path.toList.contains '\x00' = false) :
    ∃ way content, Path.IsPlace way ∧ path = Path.below (Path.located t.here root) way ∧
      t.look path = .ok (some (.file content)) := by
  obtain ⟨entries, hroot⟩ := Scan.exists_look_of_sourceFiles h
  have hentries := FileTree.proper_of_look hproper hroot
  obtain ⟨dirs, name, e, hcomes, rfl, hcounts, -⟩ :=
    ((Scan.isListing_of_sourceFiles hproper hroot h).mem_iff path).1 hpath
  have hway := hentries.isPlace_of_under? hcomes.lies
  have hlook : ∃ content, t.look (Path.below (Path.located t.here root) (dirs ++ [name])) =
      .ok (some (.file content)) := by
    cases e with
    | file content =>
        rw [Scan.sourceFiles_of_look hroot, Success.mapError_eq_ok_iff] at h
        exact ⟨content, FileTree.look_below (Path.isAbsolute_located hhere root) hroot hway
          (by simp) hcomes.lies hnul
          (Scan.not_refuses_of_comesTo hentries h (Scan.comesTo_levels_iff.2 hcomes))⟩
    | link target => exact FileTree.isFile_eq_true_iff.1 hcounts
    | dir inner => exact absurd hcounts not_false
  obtain ⟨content, hlook⟩ := hlook
  exact ⟨_, content, hway, rfl, hlook⟩

/-- Names on the way down take no link back. -/
theorem straight_below {dir : String} {way : List String} (hway : Path.IsPlace way)
    (h : t.Straight (Path.segments dir)) : t.Straight (Path.segments (Path.below dir way)) := by
  by_cases hne : way = []
  · rw [hne]
    exact h
  obtain ⟨front, hsegments, hbehind⟩ := Path.exists_segments_below dir
  rw [hbehind way hway hne]
  have hfront : t.Straight front := by
    rcases hsegments with hsegments | hsegments
    · rwa [hsegments] at h
    · rw [hsegments] at h
      exact h.of_append
  exact hfront.append fun hmem => (hway ".." hmem).ne_dots rfl

-- =========================================================== a forked tree

/-- What is in the directory `a`. -/
def insideA : List (String × Entry) :=
  [("sub", .dir []), ("x.ts", .file [])]

/-- A link to the directory `a`, and one to the directory below it. -/
def forked : FileTree where
  top := .dir [("a", .dir insideA), ("k", .link "a"), ("l", .link "a/sub")]
  here := "/"

theorem proper_forked : forked.top.Proper := by
  have hempty : (Entry.dir []).Proper :=
    .dir List.nodup_nil (List.forall_mem_nil _) (List.forall_mem_nil _)
  have hinside : (Entry.dir insideA).Proper := by
    refine .dir (by decide) (by decide) ?_
    simp only [insideA, List.forall_mem_cons]
    exact ⟨hempty, .file _, List.forall_mem_nil _⟩
  refine .dir (by decide) (by decide) ?_
  simp only [List.forall_mem_cons]
  exact ⟨hinside, .link _, .link _, List.forall_mem_nil _⟩

/-- The link `k` is left by the name of `a`. -/
theorem walk_k (rest : List String) :
    FileTree.walk forked.top FileTree.maxLinks [] ("k" :: rest) =
      FileTree.walk forked.top 39 [("a", .dir insideA)] rest := by
  have htarget : Path.segments "a" = ["a"] := by decide
  have hrel : Path.isAbsolute "a" = false := by decide
  show FileTree.walk forked.top (39 + 1) [] ("k" :: rest) = _
  rw [FileTree.walk_link rfl (by decide) (by decide) (by decide) (by decide) rfl, htarget, hrel]
  exact FileTree.walk_enter rfl (by decide) (by decide) (by decide) rfl (by simp)

/-- Above the end of the link `l` is `a`. -/
theorem walk_l (rest : List String) :
    FileTree.walk forked.top FileTree.maxLinks [] ("l" :: ".." :: rest) =
      FileTree.walk forked.top 39 [("a", .dir insideA)] rest := by
  have htarget : Path.segments "a/sub" = ["a", "sub"] := by decide
  have hrel : Path.isAbsolute "a/sub" = false := by decide
  show FileTree.walk forked.top (39 + 1) [] ("l" :: ".." :: rest) = _
  rw [FileTree.walk_link rfl (by decide) (by decide) (by decide) (by decide) rfl, htarget, hrel]
  refine (FileTree.walk_enter rfl (by decide) (by decide) (by decide) rfl (by simp)).trans ?_
  refine (FileTree.walk_enter rfl (by decide) (by decide) (by decide) rfl (by simp)).trans ?_
  exact FileTree.walk_up rfl

/-- A root from which the walk goes on in `a` has the file in it. -/
theorem sourceFiles_forked {dir : String} {front : List String}
    (hlocated : Path.located forked.here root = dir)
    (hfront : ∀ rest, FileTree.walk forked.top FileTree.maxLinks [] (front ++ rest) =
      FileTree.walk forked.top 39 [("a", .dir insideA)] rest)
    (hpaths : ∀ way ∈ [[], ["sub"], ["x.ts"]], Path.below dir way ≠ "" ∧
      (Path.below dir way).toList.contains '\x00' = false ∧
      (Path.below dir way).utf8ByteSize ≤ FileTree.maxPathBytes ∧
      Path.segments (Path.join forked.here (Path.below dir way)) = front ++ way) :
    Scan.sourceFiles forked ⟨[".ts"], []⟩ 10 root = .ok [Path.join dir "x.ts"] := by
  have hlook : ∀ way ∈ [[], ["sub"], ["x.ts"]], ∀ trail,
      FileTree.walk forked.top 39 [("a", .dir insideA)] way = .ok ⟨trail, none⟩ →
        forked.look (Path.below dir way) = .ok (some (FileTree.entryAt forked.top trail)) := by
    intro way hway trail hwalk
    obtain ⟨hne, hnul, hlen, hsegments⟩ := hpaths way hway
    refine FileTree.look_of_spot ?_
    rw [FileTree.spot_eq_walk hne hnul hlen, hsegments, hfront, hwalk]
  have hdir : forked.look dir = .ok (some (.dir insideA)) :=
    hlook [] (by decide) [("a", .dir insideA)] (by cbv)
  have hsub : forked.look (Path.join dir "sub") = .ok (some (.dir [])) :=
    hlook ["sub"] (by decide) [("sub", .dir []), ("a", .dir insideA)] (by cbv)
  have hfile : forked.look (Path.join dir "x.ts") = .ok (some (.file [])) :=
    hlook ["x.ts"] (by decide) [("x.ts", .file []), ("a", .dir insideA)] (by cbv)
  have horder : Scan.inOrder insideA = insideA := by cbv
  have hnone : Scan.inOrder [] = [] := by cbv
  rw [Scan.sourceFiles_of_look (hlocated.symm ▸ hdir), hlocated]
  show (Scan.filesBelow _ _ (9 + 1 + 1) _ _).mapError _ = _
  unfold Scan.filesBelow
  rw [horder]
  simp only [insideA, List.mapM_cons, List.mapM_nil, Scan.filesOf, hsub, hfile,
    Success.ok_bind, Scan.filesBelow, hnone]
  rfl

theorem sourceFiles_k :
    Scan.sourceFiles forked ⟨[".ts"], []⟩ 10 "k/sub/.." = .ok ["/k/sub/../x.ts"] := by
  have hfront : ∀ rest, FileTree.walk forked.top FileTree.maxLinks []
      (["", "k", "sub", ".."] ++ rest) =
        FileTree.walk forked.top 39 [("a", .dir insideA)] rest := by
    intro rest
    refine (FileTree.walk_empty rfl).trans ((walk_k _).trans ?_)
    refine (FileTree.walk_enter rfl (by decide) (by decide) (by decide) rfl (by simp)).trans ?_
    exact FileTree.walk_up rfl
  have hfile : Path.join "/k/sub/.." "x.ts" = "/k/sub/../x.ts" := by decide
  rw [← hfile]
  exact sourceFiles_forked (by decide) hfront (by decide)

theorem sourceFiles_l :
    Scan.sourceFiles forked ⟨[".ts"], []⟩ 10 "l/.." = .ok ["/l/../x.ts"] := by
  have hfront : ∀ rest, FileTree.walk forked.top FileTree.maxLinks [] (["", "l", ".."] ++ rest) =
      FileTree.walk forked.top 39 [("a", .dir insideA)] rest :=
    fun rest => (FileTree.walk_empty rfl).trans (walk_l rest)
  have hfile : Path.join "/l/.." "x.ts" = "/l/../x.ts" := by decide
  rw [← hfile]
  exact sourceFiles_forked (by decide) hfront (by decide)

/-- The name that the root `k/sub/..` takes back is that of a directory. -/
theorem straight_k : forked.Straight (Path.segments "/k/sub/..") := by
  have hsegments : Path.segments "/k/sub/.." = ["", "k", "sub", ".."] := by decide
  have hwalk : FileTree.walk forked.top FileTree.maxLinks [] ["k"] =
      .ok ⟨[("a", .dir insideA)], none⟩ := (walk_k []).trans (by cbv)
  rw [hsegments]
  intro front back heq hends
  obtain rfl : front = ["", "k", "sub"] := by
    rcases front with _ | ⟨a, _ | ⟨b, _ | ⟨c, _ | ⟨d, front⟩⟩⟩⟩ <;> simp at heq ⊢
    exact ⟨heq.1, heq.2.1.symm, heq.2.2.1.symm⟩
  obtain ⟨outer, name, trail, entries, target, hplace, hwalk', hdir, hlink⟩ := hends
  obtain ⟨rfl, rfl⟩ : ["k"] = outer ∧ "sub" = name := by
    have hplace : ["k"] ++ ["sub"] = outer ++ [name] := hplace
    simpa using List.append_inj' hplace rfl
  rw [hwalk] at hwalk'
  obtain rfl := (FileTree.Spot.mk.inj (Except.ok.inj hwalk')).1
  obtain rfl := Entry.dir.inj hdir
  have hsub : insideA.lookup "sub" = some (.dir []) := rfl
  rw [hsub] at hlink
  cases hlink

-- ============================================================== in place

/-- What is listed is a file, and what is read for it lies the same way
below the normal form of the root: if nothing does, the file is missing,
and if the same file does, its bytes are read. That is so if the root
takes no link back. -/
theorem listed_read_in_place (hproper : t.top.Proper) (hhere : Path.isAbsolute t.here = true)
    (h : Scan.sourceFiles t w maxDepth root = .ok paths)
    (hnul : ∀ path ∈ paths, path.toList.contains '\x00' = false) :
    let dir := Path.located t.here root
    (∀ path ∈ paths, ∃ way content,
      path = Path.below dir way ∧
      Path.absolute t.here path = Path.below (Path.normalize dir) way ∧
      t.look path = .ok (some (.file content)) ∧
      ∀ grammar extensions,
        ((∃ q, Reading.ofFile grammar t extensions path = .error (.noFile q)) ↔
          t.leadsSomewhere (Path.absolute t.here path) = false) ∧
        (t.SamePlace path (Path.absolute t.here path) →
          Reading.IsMadeOf grammar t extensions path content)) ∧
    (t.Straight (Path.segments dir) →
      ∀ path ∈ paths, t.SamePlace path (Path.absolute t.here path)) := by
  intro dir
  have hdir := Path.isAbsolute_located hhere root
  constructor
  · intro path hpath
    obtain ⟨way, content, hway, rfl, hlook⟩ :=
      exists_file_of_mem_sourceFiles hproper hhere h hpath (hnul path hpath)
    refine ⟨way, content, rfl, ?_, hlook, fun grammar extensions =>
      ⟨Reading.exists_noFile_iff, fun hsame => Reading.isMadeOf_of_look (hsame.look hlook)⟩⟩
    unfold Path.absolute
    rw [Path.join_of_isAbsolute (Path.isAbsolute_below hdir hway),
      Path.normalize_below hdir hway]
  · intro hstraight path hpath
    obtain ⟨way, content, hway, rfl, hlook⟩ :=
      exists_file_of_mem_sourceFiles hproper hhere h hpath (hnul path hpath)
    have hbelow := Path.isAbsolute_below hdir hway
    obtain ⟨trail, hspot, -⟩ := FileTree.spot_of_look hlook
    refine ⟨trail, hspot, ?_⟩
    unfold Path.absolute
    rw [Path.join_of_isAbsolute hbelow]
    exact FileTree.spot_normalize hbelow (straight_below hway hstraight) hspot

theorem listed_read_in_place_forked :
    forked.top.Proper ∧ forked.Straight (Path.segments (Path.located forked.here "k/sub/..")) ∧
      Scan.sourceFiles forked ⟨[".ts"], []⟩ 10 "k/sub/.." = .ok ["/k/sub/../x.ts"] ∧
      Path.absolute forked.here "/k/sub/../x.ts" = "/k/x.ts" ∧
      forked.SamePlace "/k/sub/../x.ts" "/k/x.ts" := by
  have hlocated : Path.located forked.here "k/sub/.." = "/k/sub/.." := by decide
  have habsolute : Path.absolute forked.here "/k/sub/../x.ts" = "/k/x.ts" := by decide
  have hstraight : forked.Straight (Path.segments (Path.located forked.here "k/sub/..")) :=
    hlocated.symm ▸ straight_k
  obtain ⟨-, hsame⟩ := listed_read_in_place proper_forked (by decide) sourceFiles_k (by decide)
  have hfile := hsame hstraight "/k/sub/../x.ts" (by simp)
  rw [habsolute] at hfile
  exact ⟨proper_forked, hstraight, sourceFiles_k, habsolute, hfile⟩

/-- A file may be listed and not be there to be read. -/
theorem listed_elsewhere :
    ¬ ∀ (t : FileTree) (w : Scan.Wanted) (maxDepth : Int) (root : String)
        (paths : List String), t.top.Proper → Path.isAbsolute t.here = true →
      Scan.sourceFiles t w maxDepth root = .ok paths →
      (∀ path ∈ paths, path.toList.contains '\x00' = false) →
        ∀ path ∈ paths, t.SamePlace path (Path.absolute t.here path) := by
  intro h
  have habsolute : Path.absolute forked.here "/l/../x.ts" = "/x.ts" := by decide
  obtain ⟨trail, -, hspot⟩ := h forked _ _ _ _ proper_forked (by decide) sourceFiles_l
    (by decide) "/l/../x.ts" (by simp)
  rw [habsolute, FileTree.spot_eq_walk (by decide) (by decide) (by decide)] at hspot
  have hnothing : FileTree.walk forked.top FileTree.maxLinks []
      (Path.segments (Path.join forked.here "/x.ts")) = .ok ⟨[], some "x.ts"⟩ := by cbv
  rw [hnothing] at hspot
  cases hspot

end Survey

end ModuleAtlas
