/-
Exports that nothing takes, and exports that are not seen to be taken.

An export is reported as unused if its name is among the specifiers of no
import, whatever the imports lead to (`mem_unusedExports_iff`). Among them
are the names that each statement takes, but two kinds of names are not
seen. A name with an alias is recorded under the alias: it counts as the
local name that the statement binds. And a file with faults is recorded
without its imports. So of what the text of a file without faults takes,
everything is in use under the name that it is recorded under
(`taken_not_unused`), and both exceptions do occur (`taken_unused`).
-/
import ModuleAtlas.Proofs.Syntax.Faults
import ModuleAtlas.Proofs.Syntax.Specifiers
import ModuleAtlas.Report

namespace ModuleAtlas

open Syntax (lineOf onLine)

variable {grammar : Grammar} {t : FileTree} {extensions : List String} {path : String}
  {value name : String} {newName : Option String}

namespace Reading

/-- In the text of the file a statement takes `name` from the module
`value`, as `newName` if it says so. -/
def TakesIn (grammar : Grammar) (t : FileTree) (path value name : String)
    (newName : Option String) : Prop :=
  ∃ source a n, t.read (Path.absolute t.here path) = .ok source ∧
    (grammar (dialect (Path.absolute t.here path)) source).sub? a = some n ∧
    Syntax.Node.Takes source n value name newName

/-- What the text of a file without faults takes is recorded, with an import
of the module that it is taken from. -/
theorem exists_import_of_takesIn {r : Reading}
    (hread : ofFile grammar t extensions path = .ok r) (hfaults : r.module.faults = [])
    (htakes : TakesIn grammar t path value name newName) :
    ∃ i ∈ r.module.imports, i.source = value ∧ newName.getD name ∈ i.specifiers := by
  obtain ⟨source, a, n, hsource, hn, htakes⟩ := htakes
  obtain ⟨-, source', hsource', -, htree⟩ := ofFile_eq_ok_iff.1 hread
  obtain rfl := Except.ok.inj (hsource.symm.trans hsource')
  obtain ⟨found, -, rfl⟩ := ofTree_eq_ok_iff.1 htree
  dsimp only at hfaults ⊢
  unfold findings at hfaults ⊢
  split at hfaults
  · next hmark =>
    rw [Syntax.faults_eq_nil_iff.1 hfaults] at hmark
    cases hmark
  · next hmark =>
    rw [if_neg hmark]
    exact Syntax.Node.exists_import_of_findings hfaults hn htakes

end Reading

namespace Project

variable {p : Project}

theorem mem_importedNames_iff :
    name ∈ p.importedNames ↔ ∃ m ∈ p.modules, ∃ i ∈ m.imports, name ∈ i.specifiers := by
  simp only [importedNames, List.mem_flatMap]

/-- An export is reported as unused exactly if no import of any file has
its name among its specifiers and the name is none of those that are used
without being spelled out. -/
theorem mem_unusedExports_iff :
    name ∈ p.unusedExports ↔
      (∃ m ∈ p.modules, ∃ e ∈ m.exports, e.name = name) ∧
        name ≠ "default" ∧ name ≠ "*" ∧
        ∀ m ∈ p.modules, ∀ i ∈ m.imports, name ∉ i.specifiers := by
  have htest : (!p.importedNames.contains name && !isWildName name) = true ↔
      name ≠ "default" ∧ name ≠ "*" ∧
        ∀ m ∈ p.modules, ∀ i ∈ m.imports, name ∉ i.specifiers := by
    have hspelled : (!isWildName name) = true ↔ name ≠ "default" ∧ name ≠ "*" := by
      simp [isWildName]
    have hunnamed : (!p.importedNames.contains name) = true ↔
        ∀ m ∈ p.modules, ∀ i ∈ m.imports, name ∉ i.specifiers := by
      rw [Bool.not_eq_true', ← Bool.not_eq_true, List.contains_iff_mem, mem_importedNames_iff]
      simp only [not_exists, not_and]
    rw [Bool.and_eq_true, hspelled, hunnamed, and_comm, and_assoc]
  unfold unusedExports
  simp only [List.mem_flatMap, List.mem_filter, List.mem_map]
  constructor
  · intro h
    obtain ⟨m, hm, hexport, hunused⟩ := h
    exact ⟨⟨m, hm, hexport⟩, htest.1 hunused⟩
  · intro h
    obtain ⟨⟨m, hm, hexport⟩, hunused⟩ := h
    exact ⟨m, hm, hexport, htest.2 hunused⟩

-- ============================================================== taking

/-- The project consists of files that were read. The file at `path`,
which is not the file of `m`, takes the export `name` of that from it, as
`newName` if it says so. -/
structure TakesExport (grammar : Grammar) (t : FileTree) (extensions : List String)
    (p : Project) (path : String) (m : Module) (name : String) (newName : Option String) :
    Prop where
  read : ∀ u ∈ p.modules, ∃ from_ r, Reading.ofFile grammar t extensions from_ = .ok r ∧ r.module = u
  exporter : m ∈ p.modules
  exported : ∃ e ∈ m.exports, e.name = name
  taker : ∃ r, Reading.ofFile grammar t extensions path = .ok r ∧ r.module ∈ p.modules ∧
    r.module.path ≠ m.path
  taken : ∃ value, Reading.TakesIn grammar t path value name newName ∧
    Resolver.resolve t.isFile extensions t.here (Path.absolute t.here path) value =
      .ok (some m.path)

/-- If the file that takes an export has no faults, the name under which
it takes it is not reported as unused. That is the name of the export if
the statement gives no other one. -/
theorem taken_not_unused {m : Module}
    (h : TakesExport grammar t extensions p path m name newName)
    (hfaults : ∀ r, Reading.ofFile grammar t extensions path = .ok r → r.module.faults = [])
    (top : Int) :
    newName.getD name ∉ (p.report top).unusedExports ∧
      ((∀ other ∈ newName, other = name) → name ∉ (p.report top).unusedExports) := by
  have hrecorded : newName.getD name ∉ p.unusedExports := by
    obtain ⟨r, hread, hmem, -⟩ := h.taker
    obtain ⟨value, htakes, -⟩ := h.taken
    obtain ⟨i, hi, -, hname⟩ := Reading.exists_import_of_takesIn hread (hfaults r hread) htakes
    intro hunused
    exact (mem_unusedExports_iff.1 hunused).2.2.2 r.module hmem i hi hname
  refine ⟨hrecorded, fun hsame => ?_⟩
  have hgetD : newName.getD name = name := by
    cases newName with
    | none => rfl
    | some other => exact hsame other rfl
  exact hgetD ▸ hrecorded

-- ==================================================== a file and its user

def offer : Bytes := lineOf "export const n = 1;"

def treeOfOffer : Syntax.Node :=
  onLine (.other "program") none true 0 19 [
    onLine .exportStatement none true 0 19 [
      onLine .lexicalDeclaration (some .declaration) true 7 19 [
        onLine .variableDeclarator none true 13 18 [
          onLine .identifier (some .name) true 13 14 []]]]]

/-- The statement that takes from `./a` what the specifier at the tenth
byte, ending at `stop`, says. -/
def taking (stop : Nat) (names : List Syntax.Node) : Syntax.Node :=
  onLine .importStatement none true 0 (stop + 14) [
    onLine .importClause none true 7 (stop + 2) [
      onLine .namedImports none true 7 (stop + 2) [
        onLine .importSpecifier none true 9 stop names]],
    onLine .string (some .source) true (stop + 8) (stop + 13) []]

def use : Bytes := lineOf "import { n } from './a';"

def treeOfUse : Syntax.Node :=
  onLine (.other "program") none true 0 24 [
    taking 10 [onLine .identifier (some .name) true 9 10 []]]

def renamingUse : Bytes := lineOf "import { n as k } from './a';"

def treeOfRenamingUse : Syntax.Node :=
  onLine (.other "program") none true 0 29 [
    taking 15 [onLine .identifier (some .name) true 9 10 [],
      onLine .identifier (some .newName) true 14 15 []]]

def faultyUse : Bytes := lineOf "import { n } from './a'; )"

def treeOfFaultyUse : Syntax.Node :=
  onLine (.other "program") none true 0 26 [
    taking 10 [onLine .identifier (some .name) true 9 10 []],
    .node ⟨.other "ERROR", none, true, .error, 25, 26, ⟨0, 25⟩, none⟩ []]

/-- A file that offers `n`, and another one. -/
def offerAnd (text : Bytes) : FileTree where
  top := .dir [("a.ts", .file offer), ("b.ts", .file text)]
  here := "/"

def treesOfOfferAnd (tree : Syntax.Node) : Grammar := fun _ source =>
  if source = offer then treeOfOffer else tree

def offering : Module := ⟨"/a.ts", [], [⟨"n", .named⟩], [], []⟩

def offeringAnd (user : Module) : Project where
  rootPath := "/"
  modules := [offering, user]
  totalImports := 0
  totalExports := 1
  graph := none
  skipped := []

section Concrete

variable {text : Bytes} {tree : Syntax.Node} {user : Module}

theorem look_offer : (offerAnd text).look "/a.ts" = .ok (some (.file offer)) := by
  unfold FileTree.look
  rw [FileTree.spot_eq_walk (by decide) (by decide) (by decide)]
  cbv

theorem look_user : (offerAnd text).look "/b.ts" = .ok (some (.file text)) := by
  unfold FileTree.look
  rw [FileTree.spot_eq_walk (by decide) (by decide) (by decide)]
  cbv

theorem resolve_offer :
    Resolver.resolve (offerAnd text).isFile [".ts"] "/" "/b.ts" "./a" = .ok (some "/a.ts") := by
  have hcandidates : Resolver.candidates [".ts"] (Resolver.target "/" "/b.ts" "./a") =
      ["/a", "/a.ts", "/a/index.ts"] := by decide
  have hbare : (offerAnd text).isFile "/a" = .ok false := by
    unfold FileTree.isFile FileTree.look
    rw [FileTree.spot_eq_walk (by decide) (by decide) (by decide)]
    cbv
  unfold Resolver.resolve
  rw [if_pos (by decide), hcandidates]
  unfold Resolver.firstFile
  rw [hbare, Success.ok_bind]
  unfold Resolver.firstFile
  rw [FileTree.isFile_of_look look_offer]
  rfl

/-- One of the two files is read if its text is one and its imports can be
looked up. -/
theorem exists_ofFile {source : Bytes} {f : Syntax.Findings} {found : List (Option String)}
    (hpath : Path.absolute "/" path = path)
    (hlook : (offerAnd text).look path = .ok (some (.file source)))
    (htext : source.any Reading.isBinary = false)
    (hfindings : Reading.findings source
      (treesOfOfferAnd tree (Reading.dialect path) source) = f)
    (hfound : f.imports.mapM (fun i =>
      Resolver.resolve (offerAnd text).isFile [".ts"] "/" path i.source) = .ok found) :
    ∃ r, Reading.ofFile (treesOfOfferAnd tree) (offerAnd text) [".ts"] path = .ok r ∧
      r.module = ⟨path, f.imports, f.exports, Reading.distinct (found.filterMap id), f.faults⟩ := by
  have hhere : Path.absolute (offerAnd text).here path = path := hpath
  obtain ⟨r, hr, hmodule⟩ : ∃ r,
      Reading.ofTree (offerAnd text).isFile [".ts"] "/" path source
        (treesOfOfferAnd tree (Reading.dialect path) source) = .ok r ∧
      r.module =
        ⟨path, f.imports, f.exports, Reading.distinct (found.filterMap id), f.faults⟩ := by
    subst hfindings
    exact ⟨_, Reading.ofTree_eq_ok_iff.2 ⟨found, hfound, rfl⟩, rfl⟩
  refine ⟨r, Reading.ofFile_eq_ok_iff.2 ?_, hmodule⟩
  rw [hhere]
  exact ⟨FileTree.leadsSomewhere_of_look hlook, source, FileTree.read_of_look hlook, htext, hr⟩

theorem exists_ofFile_offer :
    ∃ r, Reading.ofFile (treesOfOfferAnd tree) (offerAnd text) [".ts"] "/a.ts" = .ok r ∧
      r.module = offering := by
  have hfindings : Reading.findings offer treeOfOffer = ⟨[], [⟨"n", .named⟩], []⟩ := by cbv
  have htree : treesOfOfferAnd tree (Reading.dialect "/a.ts") offer = treeOfOffer := if_pos rfl
  exact exists_ofFile (by decide) look_offer (by decide) (by rw [htree, hfindings]) rfl

theorem takes_taking {stop : Nat} {names : List Syntax.Node}
    (hvalue : (onLine .string (some .source) true (stop + 8) (stop + 13) []).stringValue text =
      "./a")
    (hnames : Syntax.Node.Names text (onLine .importSpecifier none true 9 stop names) "n" newName) :
    Syntax.Node.Takes text (taking stop names) "./a" "n" newName :=
  .importing rfl rfl rfl rfl hvalue rfl List.mem_cons_self rfl List.mem_cons_self rfl hnames

/-- The other file takes `n` if the first statement of its text does. -/
theorem takesExport_offeringAnd {stop : Nat} {names others : List Syntax.Node} {size : Nat}
    (htree : tree = onLine (.other "program") none true 0 size (taking stop names :: others))
    (hother : text ≠ offer)
    (hread : ∃ r, Reading.ofFile (treesOfOfferAnd tree) (offerAnd text) [".ts"] "/b.ts" = .ok r ∧
      r.module = user)
    (htakes : Syntax.Node.Takes text (taking stop names) "./a" "n" newName) :
    TakesExport (treesOfOfferAnd tree) (offerAnd text) [".ts"] (offeringAnd user) "/b.ts" offering
      "n" newName := by
  have hpath : Path.absolute "/" "/b.ts" = "/b.ts" := by decide
  have hhere : Path.absolute (offerAnd text).here "/b.ts" = "/b.ts" := hpath
  obtain ⟨r, hr, rfl⟩ := hread
  refine ⟨?_, List.mem_cons_self, ⟨_, List.mem_cons_self, rfl⟩,
    ⟨r, hr, List.mem_cons_of_mem _ List.mem_cons_self, ?_⟩, "./a", ?_, ?_⟩
  · intro u hu
    rcases List.mem_cons.1 hu with rfl | hu
    · exact ⟨_, exists_ofFile_offer⟩
    · rw [List.mem_singleton.1 hu]
      exact ⟨_, r, hr, rfl⟩
  · rw [Reading.path_of_ofFile hr, hhere]
    decide
  · refine ⟨text, [0], taking stop names, ?_, ?_, htakes⟩
    · rw [hhere]
      exact FileTree.read_of_look look_user
    · rw [treesOfOfferAnd, if_neg hother, htree]
      rfl
  · rw [hhere]
    exact resolve_offer

/-- The other file, if it takes `n` as `local_` and can be read. -/
def userAs (local_ : String) : Module :=
  ⟨"/b.ts", [⟨"./a", .named, [local_]⟩], [], ["/a.ts"], []⟩

theorem exists_ofFile_user {local_ : String} (hother : text ≠ offer)
    (htext : text.any Reading.isBinary = false)
    (hfindings : Reading.findings text tree = ⟨[⟨"./a", .named, [local_]⟩], [], []⟩) :
    ∃ r, Reading.ofFile (treesOfOfferAnd tree) (offerAnd text) [".ts"] "/b.ts" = .ok r ∧
      r.module = userAs local_ := by
  have htree : treesOfOfferAnd tree (Reading.dialect "/b.ts") text = tree := if_neg hother
  have hfound : [(⟨"./a", .named, [local_]⟩ : Import)].mapM (fun i =>
      Resolver.resolve (offerAnd text).isFile [".ts"] "/" "/b.ts" i.source) =
        .ok [some "/a.ts"] :=
    Success.mapM_eq_ok_iff.2 (.cons resolve_offer .nil)
  exact exists_ofFile (by decide) look_user htext (htree.symm ▸ hfindings) hfound

end Concrete

-- =================================================== what is seen, and not

theorem exists_ofFile_use :
    ∃ r, Reading.ofFile (treesOfOfferAnd treeOfUse) (offerAnd use) [".ts"] "/b.ts" = .ok r ∧
      r.module = userAs "n" :=
  exists_ofFile_user (by decide) (by decide) (by cbv)

theorem takes_use : TakesExport (treesOfOfferAnd treeOfUse) (offerAnd use) [".ts"]
    (offeringAnd (userAs "n")) "/b.ts" offering "n" none :=
  takesExport_offeringAnd rfl (by decide) exists_ofFile_use
    (takes_taking (by cbv) ⟨⟨_, rfl, by cbv⟩, ⟨_, rfl, rfl⟩⟩)

theorem taken_not_unused_use :
    TakesExport (treesOfOfferAnd treeOfUse) (offerAnd use) [".ts"] (offeringAnd (userAs "n"))
        "/b.ts" offering "n" none ∧
      "n" ∉ ((offeringAnd (userAs "n")).report 10).unusedExports := by
  have hfaults : ∀ r, Reading.ofFile (treesOfOfferAnd treeOfUse) (offerAnd use) [".ts"] "/b.ts" =
      .ok r → r.module.faults = [] := by
    intro r hr
    obtain ⟨r', hr', hmodule⟩ := exists_ofFile_use
    obtain rfl := Except.ok.inj (hr.symm.trans hr')
    rw [hmodule]
    rfl
  exact ⟨takes_use, (taken_not_unused takes_use hfaults 10).2 fun _ hnone => nomatch hnone⟩

theorem takes_renamingUse : TakesExport (treesOfOfferAnd treeOfRenamingUse) (offerAnd renamingUse)
    [".ts"] (offeringAnd (userAs "k")) "/b.ts" offering "n" (some "k") := by
  have hother : renamingUse ≠ offer := by decide
  have hfindings : Reading.findings renamingUse treeOfRenamingUse =
      ⟨[⟨"./a", .named, ["k"]⟩], [], []⟩ := by cbv
  exact takesExport_offeringAnd rfl hother (exists_ofFile_user hother (by decide) hfindings)
    (takes_taking (by cbv) ⟨⟨_, rfl, by cbv⟩, ⟨_, rfl, by cbv⟩⟩)

/-- The other file, if its text has a fault. -/
def faultyUser : Module :=
  ⟨"/b.ts", [], [], [], [⟨"Unexpected syntax near ')'", ⟨1, 26⟩⟩]⟩

theorem takes_faultyUse : TakesExport (treesOfOfferAnd treeOfFaultyUse) (offerAnd faultyUse)
    [".ts"] (offeringAnd faultyUser) "/b.ts" offering "n" none := by
  have hother : faultyUse ≠ offer := by decide
  have htree : treesOfOfferAnd treeOfFaultyUse (Reading.dialect "/b.ts") faultyUse =
      treeOfFaultyUse := if_neg hother
  have hfindings : Reading.findings faultyUse treeOfFaultyUse =
      ⟨[], [], [⟨"Unexpected syntax near ')'", ⟨1, 26⟩⟩]⟩ := by cbv
  have hread : ∃ r, Reading.ofFile (treesOfOfferAnd treeOfFaultyUse) (offerAnd faultyUse) [".ts"]
      "/b.ts" = .ok r ∧ r.module = faultyUser :=
    exists_ofFile (by decide) look_user (by decide) (htree.symm ▸ hfindings) rfl
  exact takesExport_offeringAnd rfl hother hread
    (takes_taking (by cbv) ⟨⟨_, rfl, by cbv⟩, ⟨_, rfl, rfl⟩⟩)

/-- An export can be taken and reported as unused: if the file that takes
it gives it another name, and if that file has a fault. -/
theorem taken_unused :
    (¬ ∀ (grammar : Grammar) (t : FileTree) (extensions : List String) (p : Project)
        (path : String) (m : Module) (name : String) (newName : Option String) (top : Int),
      TakesExport grammar t extensions p path m name newName →
        name ∉ (p.report top).unusedExports) ∧
    ¬ ∀ (grammar : Grammar) (t : FileTree) (extensions : List String) (p : Project)
        (path : String) (m : Module) (name : String) (top : Int),
      TakesExport grammar t extensions p path m name none →
        name ∉ (p.report top).unusedExports := by
  constructor
  · intro h
    have hused := h _ _ _ _ _ _ _ _ 10 takes_renamingUse
    have hunused : "n" ∈ (offeringAnd (userAs "k")).unusedExports := by decide
    exact hused hunused
  · intro h
    have hused := h _ _ _ _ _ _ _ 10 takes_faultyUse
    have hunused : "n" ∈ (offeringAnd faultyUser).unusedExports := by decide
    exact hused hunused

end Project

end ModuleAtlas
