/-
What a scan lists.

# Where a scan comes

From its root a scan comes to every entry that lies at the end of a way
through directories, as long as none of them is excluded and there are
not too many of them (`ComesTo`). A link is an entry, but no way leads
through it. Of these entries it lists the files and the links to files
whose suffix is wanted, each under the path of its way
(`mem_filesBelow_iff`).

# In which order

The entries of a directory are gone through by name, and all that lies
below one of them comes before the next. So the paths are in the order of
their segments, which compares the first names that differ
(`pairwise_filesBelow`), and no path comes twice.

# Whether there is a listing

The system is asked about each of the entries, and it refuses some
answers. If it does, for one entry only, there is no listing at all
(`exists_filesBelow_iff`). A link is enough for that, even if it leads
nowhere: in `linkedTooFar` the only entry is a link to a name that is too
long to exist.
-/
import Mathlib
import ModuleAtlas.Scan
import ModuleAtlas.Proofs.FileTree.Proper
import ModuleAtlas.Proofs.Path
import ModuleAtlas.Proofs.Path.Below

namespace ModuleAtlas.Scan

variable {t : FileTree} {w : Wanted} {levels : Nat} {maxDepth : Int}
    {dir name path : String} {entries : List (String × Entry)} {e : Entry}
    {dirs paths : List String}

-- ================================================== where a scan comes

/-- From `top`, the scan comes through the directories `dirs` to the entry
`e` of that name. -/
structure ComesTo (w : Wanted) (maxDepth : Int) (top : Entry)
    (dirs : List String) (name : String) (e : Entry) : Prop where
  lies : top.under? (dirs ++ [name]) = some e
  depth : (dirs.length : Int) ≤ maxDepth
  kept : ∀ d ∈ dirs, Glob.anyAccepts w.excluded d = false

theorem comesTo_nil_iff :
    ComesTo w maxDepth (.dir entries) [] name e ↔
      0 ≤ maxDepth ∧ entries.lookup name = some e := by
  constructor
  · intro h
    exact ⟨h.depth, by simpa [Entry.under?] using h.lies⟩
  · intro h
    exact ⟨by simpa [Entry.under?] using h.2, h.1, List.forall_mem_nil _⟩

theorem comesTo_cons_iff {d : String} :
    ComesTo w maxDepth (.dir entries) (d :: dirs) name e ↔
      ∃ inner, entries.lookup d = some (.dir inner) ∧
        Glob.anyAccepts w.excluded d = false ∧
        ComesTo w (maxDepth - 1) (.dir inner) dirs name e := by
  constructor
  · intro h
    obtain ⟨hlies, hdepth, hkept⟩ := h
    rw [List.forall_mem_cons] at hkept
    rw [List.length_cons] at hdepth
    rw [List.cons_append, Entry.under?_cons_eq_some_iff] at hlies
    obtain ⟨_, below, htop, hlookup, hbelow⟩ := hlies
    obtain rfl := Entry.dir.inj htop
    -- more names follow, so what lies below is a directory
    obtain ⟨inner, rfl⟩ : ∃ inner, below = .dir inner := by
      cases dirs <;>
        obtain ⟨inner, _, hinner, -⟩ := Entry.under?_cons_eq_some_iff.1 hbelow <;>
        exact ⟨inner, hinner⟩
    exact ⟨inner, hlookup, hkept.1, hbelow, by omega, hkept.2⟩
  · intro h
    obtain ⟨inner, hlookup, hkeep, hlies, hdepth, hkept⟩ := h
    refine ⟨?_, by rw [List.length_cons]; omega, List.forall_mem_cons.2 ⟨hkeep, hkept⟩⟩
    rw [List.cons_append, Entry.under?_cons_eq_some_iff]
    exact ⟨entries, .dir inner, rfl, hlookup, hlies⟩

/-- An entry that counts as a file: it is one, or a link to one. -/
def CountsAsFile (t : FileTree) (path : String) : Entry → Prop
  | .file _ => True
  | .link _ => t.isFile path = .ok true
  | .dir _ => False

/-- The path of a source file to which the scan of `dir` comes. -/
def Lists (t : FileTree) (w : Wanted) (maxDepth : Int) (dir : String)
    (top : Entry) (path : String) : Prop :=
  ∃ dirs name e, ComesTo w maxDepth top dirs name e ∧
    path = Path.below dir (dirs ++ [name]) ∧ CountsAsFile t path e ∧
    Path.suffix name ∈ w.extensions

-- ============================================================ one entry

section

variable {deeper : String → List (String × Entry) → Except SystemError (List String)}
    {files : List String}

/-- What is found at an entry: itself, what is inside of it, or nothing if
it is not to be entered or leads astray. -/
inductive Finds (t : FileTree) (w : Wanted)
    (deeper : String → List (String × Entry) → Except SystemError (List String))
    (dir name : String) : Entry → List String → Prop
  | itself {e : Entry} : CountsAsFile t (Path.join dir name) e →
      Finds t w deeper dir name e (ifWanted w name (Path.join dir name))
  | inside {inner : List (String × Entry)} {files : List String} :
      Glob.anyAccepts w.excluded name = false →
      deeper (Path.join dir name) inner = .ok files →
      Finds t w deeper dir name (.dir inner) files
  | excluded {inner : List (String × Entry)} :
      Glob.anyAccepts w.excluded name = true →
      Finds t w deeper dir name (.dir inner) []
  | astray {target : String} : ¬ CountsAsFile t (Path.join dir name) (.link target) →
      Finds t w deeper dir name (.link target) []

/-- Something comes of an entry only if the system tells of it. -/
theorem finds_of_filesOf (h : filesOf t w deeper dir name e = .ok files) :
    ¬ t.Refuses (Path.join dir name) ∧ Finds t w deeper dir name e files := by
  obtain ⟨found, hlook, hrest⟩ := Success.bind_eq_ok_iff.1 h
  constructor
  · intro hrefuses
    rw [FileTree.look_eq_error_iff.2 ⟨hrefuses, rfl⟩] at hlook
    cases hlook
  · cases e with
    | file content =>
        obtain rfl := Except.ok.inj hrest
        exact .itself trivial
    | dir inner =>
        cases hexcluded : Glob.anyAccepts w.excluded name with
        | true =>
            simp only [hexcluded, if_true] at hrest
            obtain rfl := Except.ok.inj hrest
            exact .excluded hexcluded
        | false =>
            simp only [hexcluded, Bool.false_eq_true, if_false] at hrest
            exact .inside hexcluded hrest
    | link target =>
        have hfile : CountsAsFile t (Path.join dir name) (.link target) ↔
            ∃ content, found = some (.file content) := by
          unfold CountsAsFile
          rw [FileTree.isFile_eq_true_iff, hlook]
          simp only [Except.ok.injEq]
        split at hrest
        · next heq => cases heq
        · next heq => cases heq
        · next content _ =>
          obtain rfl := Except.ok.inj hrest
          exact .itself (hfile.2 ⟨content, rfl⟩)
        · next _ hother =>
          obtain rfl := Except.ok.inj hrest
          refine .astray fun hcounts => ?_
          obtain ⟨content, hfound⟩ := hfile.1 hcounts
          exact hother content hfound

/-- An entry fails if the system refuses to tell of it, or what is inside
of it does. -/
theorem of_filesOf_eq_error {error : SystemError}
    (h : filesOf t w deeper dir name e = .error error) :
    (t.Refuses (Path.join dir name) ∧ error = .nameTooLong (Path.join dir name)) ∨
      ∃ inner, e = .dir inner ∧ Glob.anyAccepts w.excluded name = false ∧
        deeper (Path.join dir name) inner = .error error := by
  rcases Success.bind_eq_error_iff.1 h with hlook | ⟨found, -, hrest⟩
  · exact .inl (FileTree.look_eq_error_iff.1 hlook)
  · split at hrest
    · next _ inner =>
      split at hrest
      · cases hrest
      · next hkept => exact .inr ⟨inner, rfl, by simpa using hkept, hrest⟩
    all_goals cases hrest

theorem mem_ifWanted_iff {file : String} :
    path ∈ ifWanted w name file ↔ path = file ∧ Path.suffix name ∈ w.extensions := by
  unfold ifWanted
  split <;> simp_all

end

-- ============================================================ directories

theorem mem_inOrder_iff {x : String × Entry} : x ∈ inOrder entries ↔ x ∈ entries :=
  (List.mergeSort_perm _ _).mem_iff

/-- No two entries are of one name, so the names increase. -/
theorem pairwise_inOrder (h : (entries.map Prod.fst).Nodup) :
    (inOrder entries).Pairwise fun a b => a.1 < b.1 := by
  have hsorted : (inOrder entries).Pairwise fun a b => (!(b.1 < a.1)) = true :=
    List.pairwise_mergeSort (by
      intro a b c hab hbc
      simp only [Bool.not_eq_true', decide_eq_false_iff_not, not_lt] at hab hbc ⊢
      exact hab.trans hbc) (by
      intro a b
      simp only [Bool.or_eq_true, Bool.not_eq_true', decide_eq_false_iff_not, not_lt]
      exact le_total a.1 b.1) entries
  have hdistinct : (inOrder entries).Pairwise fun a b => a.1 ≠ b.1 :=
    List.pairwise_map.1 (((List.mergeSort_perm entries _).map Prod.fst).nodup_iff.2 h)
  refine (hsorted.and hdistinct).imp fun {a b} hab => ?_
  simp only [Bool.not_eq_true', decide_eq_false_iff_not, not_lt] at hab
  exact lt_of_le_of_ne hab.1 hab.2

/-- A directory is gone through entry by entry. -/
theorem filesBelow_succ_eq_ok_iff :
    filesBelow t w (levels + 1) dir entries = .ok paths ↔
      ∃ found, (inOrder entries).mapM (fun x =>
        filesOf t w (filesBelow t w levels) dir x.1 x.2) = .ok found ∧
        paths = found.flatten := by
  unfold filesBelow
  rw [Success.bind_eq_ok_iff]
  constructor
  · intro h
    obtain ⟨found, hfound, h⟩ := h
    exact ⟨found, hfound, (Except.ok.inj h).symm⟩
  · intro h
    obtain ⟨found, hfound, rfl⟩ := h
    exact ⟨found, hfound, rfl⟩

/-- Of each entry of a directory that is listed something comes, and it is
listed. -/
theorem exists_filesOf_of_mem (h : filesBelow t w (levels + 1) dir entries = .ok paths)
    (hentry : (name, e) ∈ entries) :
    ∃ files, filesOf t w (filesBelow t w levels) dir name e = .ok files ∧
      ∀ path ∈ files, path ∈ paths := by
  obtain ⟨found, hfound, rfl⟩ := filesBelow_succ_eq_ok_iff.1 h
  obtain ⟨files, hfiles, hof⟩ :=
    Success.exists_of_mem_of_mapM_eq_ok hfound (mem_inOrder_iff.2 hentry)
  exact ⟨files, hof, fun path hpath => List.mem_flatten.2 ⟨files, hfiles, hpath⟩⟩

/-- What is listed comes of an entry. -/
theorem exists_filesOf_of_mem_filesBelow
    (h : filesBelow t w (levels + 1) dir entries = .ok paths) (hpath : path ∈ paths) :
    ∃ name e files, (name, e) ∈ entries ∧
      filesOf t w (filesBelow t w levels) dir name e = .ok files ∧ path ∈ files := by
  obtain ⟨found, hfound, rfl⟩ := filesBelow_succ_eq_ok_iff.1 h
  obtain ⟨files, hfiles, hpath⟩ := List.mem_flatten.1 hpath
  obtain ⟨⟨name, e⟩, hentry, hof⟩ := (Success.mem_iff_of_mapM_eq_ok hfound).1 hfiles
  exact ⟨name, e, files, mem_inOrder_iff.1 hentry, hof, hpath⟩

/-- A directory that is not passed over is listed with the one it is in. -/
theorem exists_filesBelow_of_mem {inner : List (String × Entry)}
    (h : filesBelow t w (levels + 1) dir entries = .ok paths)
    (hentry : (name, .dir inner) ∈ entries)
    (hkept : Glob.anyAccepts w.excluded name = false) :
    ∃ files, filesBelow t w levels (Path.join dir name) inner = .ok files ∧
      ∀ path ∈ files, path ∈ paths := by
  obtain ⟨files, hof, hsub⟩ := exists_filesOf_of_mem h hentry
  cases (finds_of_filesOf hof).2 with
  | itself hdir => cases hdir
  | inside _ hinner => exact ⟨files, hinner, hsub⟩
  | excluded hexcluded =>
      rw [hkept] at hexcluded
      cases hexcluded

/-- What a scan of a directory lists. -/
theorem mem_filesBelow_iff (hproper : (Entry.dir entries).Proper)
    (h : filesBelow t w levels dir entries = .ok paths) :
    path ∈ paths ↔ Lists t w ((levels : Int) - 1) dir (.dir entries) path := by
  induction levels generalizing dir entries paths path with
  | zero =>
      obtain rfl := Except.ok.inj h
      constructor
      · intro hmem
        cases hmem
      · intro hlists
        obtain ⟨dirs, name, e, hcomes, -⟩ := hlists
        have hdepth := hcomes.depth
        omega
  | succ levels ih =>
      constructor
      · intro hmem
        obtain ⟨name, e, files, hentry, hof, hpath⟩ := exists_filesOf_of_mem_filesBelow h hmem
        have hlookup := hproper.lookup_eq_some_iff.2 hentry
        cases (finds_of_filesOf hof).2 with
        | itself hcounts =>
            obtain ⟨rfl, hwanted⟩ := mem_ifWanted_iff.1 hpath
            exact ⟨[], name, e, comesTo_nil_iff.2 ⟨by omega, hlookup⟩, rfl, hcounts, hwanted⟩
        | @inside inner _ hkept hinner =>
            obtain ⟨dirs, name', e', hcomes, rfl, hcounts, hwanted⟩ :=
              (ih (hproper.of_lookup hlookup) hinner).1 hpath
            refine ⟨name :: dirs, name', e', ?_, rfl, hcounts, hwanted⟩
            rw [comesTo_cons_iff]
            exact ⟨inner, hlookup, hkept, by simpa using hcomes⟩
        | excluded => cases hpath
        | astray => cases hpath
      · intro hlists
        obtain ⟨dirs, name, e, hcomes, rfl, hcounts, hwanted⟩ := hlists
        cases dirs with
        | nil =>
            obtain ⟨-, hlookup⟩ := comesTo_nil_iff.1 hcomes
            obtain ⟨files, hof, hsub⟩ :=
              exists_filesOf_of_mem h (hproper.lookup_eq_some_iff.1 hlookup)
            refine hsub _ ?_
            cases (finds_of_filesOf hof).2 with
            | itself => exact mem_ifWanted_iff.2 ⟨rfl, hwanted⟩
            | inside => cases hcounts
            | excluded => cases hcounts
            | astray hnot => exact absurd hcounts hnot
        | cons d dirs =>
            obtain ⟨inner, hlookup, hkept, hcomes⟩ := comesTo_cons_iff.1 hcomes
            obtain ⟨files, hinner, hsub⟩ :=
              exists_filesBelow_of_mem h (hproper.lookup_eq_some_iff.1 hlookup) hkept
            exact hsub _ ((ih (hproper.of_lookup hlookup) hinner).2
              ⟨dirs, name, e, by simpa using hcomes, rfl, hcounts, hwanted⟩)

/-- What is found at an entry has its name behind the directory. -/
theorem exists_segments_of_filesOf {front files : List String}
    (hproper : (Entry.dir entries).Proper) (hentry : (name, e) ∈ entries)
    (hfront : ∀ way, Path.IsPlace way → way ≠ [] →
      Path.segments (Path.below dir way) = front ++ way)
    (hof : filesOf t w (filesBelow t w levels) dir name e = .ok files)
    (hpath : path ∈ files) :
    ∃ rest, Path.segments path = front ++ name :: rest := by
  have hlookup := hproper.lookup_eq_some_iff.2 hentry
  cases (finds_of_filesOf hof).2 with
  | itself =>
      obtain ⟨rfl, -⟩ := mem_ifWanted_iff.1 hpath
      have hplace : Path.IsPlace [name] :=
        List.forall_mem_singleton.2 (hproper.isSegment hentry)
      exact ⟨[], hfront [name] hplace (List.cons_ne_nil _ _)⟩
  | @inside inner _ _ hinner =>
      obtain ⟨dirs, name', e', hcomes, rfl, -⟩ :=
        (mem_filesBelow_iff (hproper.of_lookup hlookup) hinner).1 hpath
      have hplace : Path.IsPlace (name :: (dirs ++ [name'])) :=
        hproper.isPlace_of_under? (Entry.under?_cons_eq_some_iff.2
          ⟨entries, .dir inner, rfl, hlookup, hcomes.lies⟩)
      exact ⟨dirs ++ [name'], hfront _ hplace (List.cons_ne_nil _ _)⟩
  | excluded => cases hpath
  | astray => cases hpath

/-- A scan lists in the order of segments. -/
theorem pairwise_filesBelow (hproper : (Entry.dir entries).Proper)
    (h : filesBelow t w levels dir entries = .ok paths) :
    paths.Pairwise fun p q => Path.segments p < Path.segments q := by
  induction levels generalizing dir entries paths with
  | zero =>
      obtain rfl := Except.ok.inj h
      exact .nil
  | succ levels ih =>
      obtain ⟨found, hfound, rfl⟩ := filesBelow_succ_eq_ok_iff.1 h
      obtain ⟨front, -, hsegments⟩ := Path.exists_segments_below dir
      rw [List.pairwise_flatten]
      constructor
      · intro files hfiles
        obtain ⟨⟨name, e⟩, hentry, hof⟩ := (Success.mem_iff_of_mapM_eq_ok hfound).1 hfiles
        cases (finds_of_filesOf hof).2 with
        | itself =>
            unfold ifWanted
            split <;> simp
        | inside _ hinner =>
            exact ih (hproper.of_mem (mem_inOrder_iff.1 hentry)) hinner
        | excluded => exact .nil
        | astray => exact .nil
      · -- what comes of two entries differs first in the names of these entries
        refine Success.pairwise_of_mapM_eq_ok hfound (pairwise_inOrder hproper.nodup) ?_
        intro x hx y hy hlt files files' hfiles hfiles' p hp q hq
        obtain ⟨rest, hrest⟩ := exists_segments_of_filesOf hproper
          (mem_inOrder_iff.1 hx) hsegments hfiles hp
        obtain ⟨rest', hrest'⟩ := exists_segments_of_filesOf hproper
          (mem_inOrder_iff.1 hy) hsegments hfiles' hq
        rw [hrest, hrest']
        exact List.append_left_lt (List.cons_lt_cons_iff.2 (.inl hlt))

-- ============================================================= refusals

/-- Where there is a listing, the system told of all that the scan comes
to. -/
theorem not_refuses_of_comesTo (hproper : (Entry.dir entries).Proper)
    (h : filesBelow t w levels dir entries = .ok paths)
    (hcomes : ComesTo w ((levels : Int) - 1) (.dir entries) dirs name e) :
    ¬ t.Refuses (Path.below dir (dirs ++ [name])) := by
  induction levels generalizing dir entries paths dirs with
  | zero =>
      have hdepth := hcomes.depth
      omega
  | succ levels ih =>
      cases dirs with
      | nil =>
          obtain ⟨-, hlookup⟩ := comesTo_nil_iff.1 hcomes
          obtain ⟨files, hof, -⟩ :=
            exists_filesOf_of_mem h (hproper.lookup_eq_some_iff.1 hlookup)
          exact (finds_of_filesOf hof).1
      | cons d dirs =>
          obtain ⟨inner, hlookup, hkept, hcomes⟩ := comesTo_cons_iff.1 hcomes
          obtain ⟨files, hinner, -⟩ :=
            exists_filesBelow_of_mem h (hproper.lookup_eq_some_iff.1 hlookup) hkept
          show ¬ t.Refuses (Path.below (Path.join dir d) (dirs ++ [name]))
          exact ih (hproper.of_lookup hlookup) hinner (by simpa using hcomes)

/-- Where there is none, it refused to tell of something. -/
theorem exists_refuses_of_filesBelow_eq_error {error : SystemError}
    (hproper : (Entry.dir entries).Proper)
    (h : filesBelow t w levels dir entries = .error error) :
    ∃ dirs name e, ComesTo w ((levels : Int) - 1) (.dir entries) dirs name e ∧
      t.Refuses (Path.below dir (dirs ++ [name])) ∧
      error = .nameTooLong (Path.below dir (dirs ++ [name])) := by
  induction levels generalizing dir entries with
  | zero => cases h
  | succ levels ih =>
      unfold filesBelow at h
      rcases Success.bind_eq_error_iff.1 h with hfound | ⟨found, -, hpure⟩
      · obtain ⟨⟨name, e⟩, hentry, hof⟩ := Success.exists_of_mapM_eq_error hfound
        have hlookup := hproper.lookup_eq_some_iff.2 (mem_inOrder_iff.1 hentry)
        rcases of_filesOf_eq_error hof with ⟨hrefuses, rfl⟩ | ⟨inner, rfl, hkept, hinner⟩
        · exact ⟨[], name, e, comesTo_nil_iff.2 ⟨by omega, hlookup⟩, hrefuses, rfl⟩
        · obtain ⟨dirs, name', e', hcomes, hrefuses, rfl⟩ :=
            ih (hproper.of_lookup hlookup) hinner
          refine ⟨name :: dirs, name', e', ?_, hrefuses, rfl⟩
          rw [comesTo_cons_iff]
          exact ⟨inner, hlookup, hkept, by simpa using hcomes⟩
      · cases hpure

/-- There is a listing exactly if the system tells of every entry that the
scan comes to. -/
theorem exists_filesBelow_iff (hproper : (Entry.dir entries).Proper) :
    (∃ paths, filesBelow t w levels dir entries = .ok paths) ↔
      ∀ dirs name e, ComesTo w ((levels : Int) - 1) (.dir entries) dirs name e →
        ¬ t.Refuses (Path.below dir (dirs ++ [name])) := by
  constructor
  · intro h dirs name e hcomes
    obtain ⟨paths, hpaths⟩ := h
    exact not_refuses_of_comesTo hproper hpaths hcomes
  · intro h
    rw [Success.exists_ok_iff]
    intro error herror
    obtain ⟨dirs, name, e, hcomes, hrefuses, -⟩ :=
      exists_refuses_of_filesBelow_eq_error hproper herror
    exact h dirs name e hcomes hrefuses

-- ================================================================ roots

variable {root : String}

/-- The levels that are counted leave as much room as the depth. -/
theorem comesTo_levels_iff {top : Entry} :
    ComesTo w (((maxDepth + 1).toNat : Int) - 1) top dirs name e ↔
      ComesTo w maxDepth top dirs name e := by
  constructor
  · intro h
    exact ⟨h.lies, by have := h.depth; omega, h.kept⟩
  · intro h
    exact ⟨h.lies, by have := h.depth; omega, h.kept⟩

/-- Below a directory, a scan is that of what it holds. -/
theorem sourceFiles_of_look
    (h : t.look (Path.located t.here root) = .ok (some (.dir entries))) :
    sourceFiles t w maxDepth root =
      (filesBelow t w (maxDepth + 1).toNat (Path.located t.here root) entries).mapError
        Failure.system := by
  unfold sourceFiles
  dsimp only
  rw [h]
  rfl

/-- There is a listing of a directory only. -/
theorem exists_look_of_sourceFiles (h : sourceFiles t w maxDepth root = .ok paths) :
    ∃ entries, t.look (Path.located t.here root) = .ok (some (.dir entries)) := by
  obtain ⟨found, hlook, h⟩ := Success.bind_eq_ok_iff.1 h
  rw [Success.mapError_eq_ok_iff] at hlook
  split at h
  · cases h
  · exact ⟨_, hlook⟩
  · cases h

/-- What a listing of the directory `dir` is to be: it has each source
file to which the scan comes, once, and goes by the names. -/
structure IsListing (t : FileTree) (w : Wanted) (maxDepth : Int) (dir : String)
    (top : Entry) (paths : List String) : Prop where
  mem_iff : ∀ path, path ∈ paths ↔ Lists t w maxDepth dir top path
  nodup : paths.Nodup
  ordered : paths.Pairwise fun p q => Path.segments p < Path.segments q

/-- Whatever is listed is all there is to list. -/
theorem isListing_of_sourceFiles (hproper : t.top.Proper)
    (hroot : t.look (Path.located t.here root) = .ok (some (.dir entries)))
    (h : sourceFiles t w maxDepth root = .ok paths) :
    IsListing t w maxDepth (Path.located t.here root) (.dir entries) paths := by
  have hentries := FileTree.proper_of_look hproper hroot
  rw [sourceFiles_of_look hroot, Success.mapError_eq_ok_iff] at h
  have hordered := pairwise_filesBelow hentries h
  refine ⟨fun path => ?_, hordered.imp ?_, hordered⟩
  · rw [mem_filesBelow_iff hentries h]
    simp only [Lists, comesTo_levels_iff]
  · intro p q hlt heq
    rw [heq] at hlt
    exact lt_irrefl _ hlt

/-- What is listed lies at the end of names that lead down. -/
theorem exists_way_of_mem_sourceFiles (hproper : t.top.Proper)
    (h : sourceFiles t w maxDepth root = .ok paths) (hpath : path ∈ paths) :
    ∃ way, Path.IsPlace way ∧ way ≠ [] ∧
      path = Path.below (Path.located t.here root) way := by
  obtain ⟨entries, hroot⟩ := exists_look_of_sourceFiles h
  obtain ⟨dirs, name, e, hcomes, rfl, -⟩ :=
    ((isListing_of_sourceFiles hproper hroot h).mem_iff path).1 hpath
  have hentries := FileTree.proper_of_look hproper hroot
  exact ⟨dirs ++ [name], hentries.isPlace_of_under? hcomes.lies, by simp, rfl⟩

/-- Also in absolute form, no two of the paths are the same. -/
theorem nodup_absolute_of_sourceFiles (hproper : t.top.Proper)
    (h : sourceFiles t w maxDepth root = .ok paths) :
    (paths.map (Path.absolute t.here)).Nodup := by
  obtain ⟨entries, hroot⟩ := exists_look_of_sourceFiles h
  refine List.Nodup.map_on ?_ (isListing_of_sourceFiles hproper hroot h).nodup
  intro p hp q hq heq
  obtain ⟨way, hplace, hne, rfl⟩ := exists_way_of_mem_sourceFiles hproper h hp
  obtain ⟨way', hplace', hne', rfl⟩ := exists_way_of_mem_sourceFiles hproper h hq
  rw [Path.absolute_below_injective hplace hne hplace' hne' heq]

-- ========================================================= among links

/-- Beside a source file there are a link to it and a link to nothing, a
directory to pass over and one to enter. -/
def linkedEntries : List (String × Entry) :=
  [("a.ts", .file []),
    ("b.ts", .link "a.ts"),
    ("c.ts", .link "nowhere"),
    ("dist", .dir [("d.ts", .file [])]),
    ("lib", .dir [("e.ts", .file [])])]

def linked : FileTree where
  top := .dir linkedEntries
  here := "/"

theorem proper_linked : linked.top.Proper := by
  have hone : ∀ name, Path.IsSegment name → (Entry.dir [(name, .file [])]).Proper := by
    intro name hname
    exact .dir (List.pairwise_singleton _ _) (List.forall_mem_singleton.2 hname)
      (List.forall_mem_singleton.2 (.file []))
  refine .dir (by decide) (by decide) ?_
  simp only [linkedEntries, List.forall_mem_cons]
  exact ⟨.file _, .link _, .link _, hone "d.ts" (by decide), hone "e.ts" (by decide),
    List.forall_mem_nil _⟩

theorem look_top : linked.look "/" = .ok (some (.dir linkedEntries)) := by
  unfold FileTree.look
  rw [FileTree.spot_eq_walk (by decide) (by decide) (by decide)]
  cbv

/-- A link beside the file leads where its target does. -/
theorem walk_linked {name target : String} {links : Nat} (hsegment : Path.IsSegment name)
    (hshort : name.utf8ByteSize ≤ FileTree.maxNameBytes)
    (hname : linkedEntries.lookup name = some (.link target))
    (htarget : Path.segments target = [target])
    (hrel : Path.isAbsolute target = false) :
    FileTree.walk linked.top (links + 1) [] ["", name] =
      FileTree.walk linked.top links [] [target] := by
  have htop : FileTree.entryAt linked.top [] = .dir linkedEntries := rfl
  rw [FileTree.walk_empty htop, FileTree.walk_link htop hsegment.ne_empty
    hsegment.ne_dot hsegment.ne_dots hshort hname, htarget, hrel]
  rfl

theorem look_b : linked.look "/b.ts" = .ok (some (.file [])) := by
  have hsegments : Path.segments (Path.join linked.here "/b.ts") = ["", "b.ts"] := by decide
  have hwalk : FileTree.walk linked.top FileTree.maxLinks [] ["", "b.ts"] =
      FileTree.walk linked.top 39 [] ["a.ts"] :=
    walk_linked (by decide) (by decide) rfl (by decide) (by decide)
  unfold FileTree.look
  rw [FileTree.spot_eq_walk (by decide) (by decide) (by decide), hsegments, hwalk]
  cbv

theorem look_c : linked.look "/c.ts" = .ok none := by
  have hsegments : Path.segments (Path.join linked.here "/c.ts") = ["", "c.ts"] := by decide
  have hwalk : FileTree.walk linked.top FileTree.maxLinks [] ["", "c.ts"] =
      FileTree.walk linked.top 39 [] ["nowhere"] :=
    walk_linked (by decide) (by decide) rfl (by decide) (by decide)
  unfold FileTree.look
  rw [FileTree.spot_eq_walk (by decide) (by decide) (by decide), hsegments, hwalk]
  cbv

theorem filesBelow_lib {levels : Nat} :
    filesBelow linked ⟨[".ts"], ["dist"]⟩ (levels + 1) "/lib" [("e.ts", .file [])] =
      .ok ["/lib/e.ts"] := by
  have horder : inOrder [("e.ts", .file [])] = [("e.ts", .file [])] := by cbv
  have hjoin : Path.join "/lib" "e.ts" = "/lib/e.ts" := by decide
  have hlook : linked.look "/lib/e.ts" = .ok (some (.file [])) := by
    unfold FileTree.look
    rw [FileTree.spot_eq_walk (by decide) (by decide) (by decide)]
    cbv
  unfold filesBelow
  rw [horder]
  simp only [List.mapM_cons, List.mapM_nil, filesOf, hjoin, hlook, Success.ok_bind]
  rfl

theorem sourceFiles_linked :
    sourceFiles linked ⟨[".ts"], ["dist"]⟩ 10 "/" =
      .ok ["/a.ts", "/b.ts", "/lib/e.ts"] := by
  have hroot : Path.located linked.here "/" = "/" := by decide
  have horder : inOrder linkedEntries = linkedEntries := by cbv
  obtain ⟨ha, hb, hc, hdist, hlib⟩ : Path.join "/" "a.ts" = "/a.ts" ∧
      Path.join "/" "b.ts" = "/b.ts" ∧ Path.join "/" "c.ts" = "/c.ts" ∧
      Path.join "/" "dist" = "/dist" ∧ Path.join "/" "lib" = "/lib" := by decide
  obtain ⟨look_a, look_dist, look_lib⟩ :
      linked.look "/a.ts" = .ok (some (.file [])) ∧
      linked.look "/dist" = .ok (some (.dir [("d.ts", .file [])])) ∧
      linked.look "/lib" = .ok (some (.dir [("e.ts", .file [])])) := by
    unfold FileTree.look
    refine ⟨?_, ?_, ?_⟩ <;>
      (rw [FileTree.spot_eq_walk (by decide) (by decide) (by decide)]; cbv)
  rw [sourceFiles_of_look (hroot.symm ▸ look_top), hroot]
  show (filesBelow _ _ (9 + 1 + 1) _ _).mapError _ = _
  unfold filesBelow
  rw [horder]
  simp only [linkedEntries, List.mapM_cons, List.mapM_nil, filesOf, ha, hb, hc, hdist, hlib,
    look_a, look_b, look_c, look_dist, look_lib, Success.ok_bind, filesBelow_lib]
  rfl

-- ====================================================== linked too far

/-- A tree with nothing but a link to a name that is too long. -/
def linkedTooFar : FileTree where
  top := .dir [("bad", .link (String.ofList Path.longName))]
  here := "/"

theorem look_linkedTooFar : linkedTooFar.look "/" =
    .ok (some (.dir [("bad", .link (String.ofList Path.longName))])) := by
  unfold FileTree.look
  rw [FileTree.spot_eq_walk (by decide) (by decide) (by decide)]
  unfold linkedTooFar
  generalize String.ofList Path.longName = target
  cbv

theorem refuses_bad : linkedTooFar.Refuses "/bad" := by
  obtain ⟨hne, hdot, hdots⟩ := Path.isName_longName.ofList_ne
  refine ⟨by decide, by decide, .inr ?_⟩
  have hsegments : Path.segments (Path.join linkedTooFar.here "/bad") = ["", "bad"] := by
    decide
  have htarget : Path.segments (String.ofList Path.longName) = [String.ofList Path.longName] :=
    Path.segments_of_notMem Path.isName_longName.slash
  have hrel : Path.isAbsolute (String.ofList Path.longName) = false := by
    unfold Path.isAbsolute
    rw [String.toList_ofList]
    rfl
  have hlinks : FileTree.maxLinks = 39 + 1 := rfl
  rw [hsegments, hlinks, FileTree.walk_empty rfl,
    FileTree.walk_link rfl (by decide) (by decide) (by decide) (by decide) rfl, htarget, hrel]
  exact FileTree.walk_longName rfl hne hdot hdots (by decide +kernel)

-- ============================================================= listings

/-- Below a directory, a scan lists exactly the source files to which it
comes, unless the system refuses to tell of something on the way. -/
theorem sourceFiles_exact (hproper : t.top.Proper)
    (hroot : t.look (Path.located t.here root) = .ok (some (.dir entries))) :
    (∀ paths, sourceFiles t w maxDepth root = .ok paths →
        IsListing t w maxDepth (Path.located t.here root) (.dir entries) paths) ∧
      ((∃ paths, sourceFiles t w maxDepth root = .ok paths) ↔
        ∀ dirs name e, ComesTo w maxDepth (.dir entries) dirs name e →
          ¬ t.Refuses (Path.below (Path.located t.here root) (dirs ++ [name]))) ∧
      ∀ failure, sourceFiles t w maxDepth root = .error failure →
        ∃ dirs name e, ComesTo w maxDepth (.dir entries) dirs name e ∧
          t.Refuses (Path.below (Path.located t.here root) (dirs ++ [name])) ∧
          failure = .system (.nameTooLong
            (Path.below (Path.located t.here root) (dirs ++ [name]))) := by
  have hentries := FileTree.proper_of_look hproper hroot
  refine ⟨fun paths => isListing_of_sourceFiles hproper hroot, ?_, ?_⟩
  · simp only [sourceFiles_of_look hroot, Success.mapError_eq_ok_iff,
      exists_filesBelow_iff hentries, comesTo_levels_iff]
  · intro failure h
    rw [sourceFiles_of_look hroot, Success.mapError_eq_error_iff] at h
    obtain ⟨error, herror, rfl⟩ := h
    obtain ⟨dirs, name, e, hcomes, hrefuses, rfl⟩ :=
      exists_refuses_of_filesBelow_eq_error hentries herror
    exact ⟨dirs, name, e, comesTo_levels_iff.1 hcomes, hrefuses, rfl⟩

theorem sourceFiles_exact_linked :
    linked.top.Proper ∧
      linked.look (Path.located linked.here "/") = .ok (some (.dir linkedEntries)) ∧
      sourceFiles linked ⟨[".ts"], ["dist"]⟩ 10 "/" = .ok ["/a.ts", "/b.ts", "/lib/e.ts"] ∧
      IsListing linked ⟨[".ts"], ["dist"]⟩ 10 (Path.located linked.here "/")
        (.dir linkedEntries) ["/a.ts", "/b.ts", "/lib/e.ts"] := by
  have hroot : Path.located linked.here "/" = "/" := by decide
  have hlook : linked.look (Path.located linked.here "/") = _ := hroot.symm ▸ look_top
  exact ⟨proper_linked, hlook, sourceFiles_linked,
    (sourceFiles_exact proper_linked hlook).1 _ sourceFiles_linked⟩

/-- Not every directory has a listing: a link that leads nowhere is enough
to prevent it. -/
theorem listing_refused :
    ¬ ∀ (t : FileTree) (w : Wanted) (maxDepth : Int) (root : String)
        (entries : List (String × Entry)), t.top.Proper →
      t.look (Path.located t.here root) = .ok (some (.dir entries)) →
        ∃ paths, sourceFiles t w maxDepth root = .ok paths ∧
          IsListing t w maxDepth (Path.located t.here root) (.dir entries) paths := by
  intro h
  have hroot : Path.located linkedTooFar.here "/" = "/" := by decide
  have hproper : linkedTooFar.top.Proper :=
    .dir (List.pairwise_singleton _ _) (List.forall_mem_singleton.2 (by decide))
      (List.forall_mem_singleton.2 (.link _))
  obtain ⟨paths, hpaths, -⟩ := h linkedTooFar ⟨[".ts"], []⟩ 10 "/" _ hproper
    (hroot.symm ▸ look_linkedTooFar)
  rw [sourceFiles_of_look (hroot.symm ▸ look_linkedTooFar), hroot,
    Success.mapError_eq_ok_iff] at hpaths
  have hcomes : ComesTo ⟨[".ts"], []⟩ 10 (.dir [("bad", .link (String.ofList Path.longName))]) []
      "bad" (.link (String.ofList Path.longName)) :=
    comesTo_nil_iff.2 ⟨by decide, rfl⟩
  have hnot := not_refuses_of_comesTo hproper hpaths (comesTo_levels_iff.2 hcomes)
  exact hnot refuses_bad

end ModuleAtlas.Scan
