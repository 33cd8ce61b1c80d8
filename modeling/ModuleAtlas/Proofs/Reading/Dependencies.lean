/-
The dependencies of a file are what its nodes refer to.

A reference leads from an address in the tree to a file (`LeadsTo`). In a
clear tree each reference makes one import, and no import is made by
anything else. So the dependencies are the files that the references lead
to, each of them once, and one before another if the text refers to it
first (`dependencies_of_clear`).
-/
import Mathlib
import ModuleAtlas.Proofs.Reading
import ModuleAtlas.Proofs.Syntax.Faults
import ModuleAtlas.Proofs.Syntax.References

namespace ModuleAtlas.Reading

open Syntax (lineOf onLine)

variable {isFile : FileTest} {extensions : List String} {here path : String}
    {source : Bytes} {root : Syntax.Node}

-- ========================================================= destinations

/-- At the address is a reference, which resolves to the file `d`. -/
def LeadsTo (isFile : FileTest) (extensions : List String) (here path : String)
    (source : Bytes) (root : Syntax.Node) (a : Syntax.Address) (d : String) : Prop :=
  ∃ n value, root.sub? a = some n ∧ Syntax.Node.Refers source n value ∧
    Resolver.resolve isFile extensions here path value = .ok (some d)

/-- The file that a specifier resolves to, if it is found. -/
def found? (isFile : FileTest) (extensions : List String) (here path : String)
    (specifier : String) : Option String :=
  (Resolver.resolve isFile extensions here path specifier).toOption.join

theorem found?_eq_some_iff {specifier d : String} :
    found? isFile extensions here path specifier = some d ↔
      Resolver.resolve isFile extensions here path specifier = .ok (some d) := by
  unfold found?
  cases Resolver.resolve isFile extensions here path specifier with
  | error e => simp [Except.toOption]
  | ok o => simp [Except.toOption]

/-- The file that the reference at an address resolves to. -/
def destination? (isFile : FileTest) (extensions : List String)
    (here path : String) (source : Bytes) (root : Syntax.Node) (a : Syntax.Address) :
    Option String :=
  ((root.sub? a).bind (Syntax.Node.reference? source)).bind
    (found? isFile extensions here path)

theorem destination?_eq_some_iff (h : root.Clear) {a : Syntax.Address} {d : String} :
    destination? isFile extensions here path source root a = some d ↔
      LeadsTo isFile extensions here path source root a d := by
  unfold destination? LeadsTo
  simp only [Option.bind_eq_some_iff, found?_eq_some_iff]
  constructor
  · intro hdest
    obtain ⟨value, ⟨n, hn, hvalue⟩, hd⟩ := hdest
    exact ⟨n, value, hn, (Syntax.Node.reference?_eq_some_iff (h.sub? hn)).1 hvalue, hd⟩
  · intro hleads
    obtain ⟨n, value, hn, hrefers, hd⟩ := hleads
    exact ⟨value, ⟨n, hn, (Syntax.Node.reference?_eq_some_iff (h.sub? hn)).2 hrefers⟩, hd⟩

-- ========================================================= dependencies

theorem findings_of_clear (h : root.Clear) :
    findings source root = root.findings Syntax.Node.child? source := by
  unfold findings
  rw [if_neg]
  intro hmark
  obtain ⟨a, m, hm, hmark⟩ := Syntax.Node.hasMark_iff.1 hmark
  exact hmark (h a m hm).1

/-- What was found for some imports is what is found for each. -/
theorem filterMap_of_mapM_eq_ok {imports : List Import}
    {found : List (Option String)}
    (h : imports.mapM (fun i => Resolver.resolve isFile extensions here path i.source) =
      .ok found) :
    found.filterMap id =
      (imports.map Import.source).filterMap (found? isFile extensions here path) := by
  have hall := Success.mapM_eq_ok_iff.1 h
  clear h
  induction hall with
  | nil => rfl
  | @cons i o imports found ho _ ih =>
      have hfound : found? isFile extensions here path i.source = o := by
        unfold found?
        rw [ho]
        rfl
      rw [List.filterMap_cons, List.map_cons, List.filterMap_cons, hfound, ih]
      rfl

/-- The dependencies of a clear tree are the destinations of its
references, each once. -/
theorem dependencies_eq_eraseDups (h : root.Clear) {r : Reading}
    (hr : ofTree isFile extensions here path source root = .ok r) :
    r.module.dependencies =
      (root.addresses.filterMap
        (destination? isFile extensions here path source root)).eraseDups := by
  obtain ⟨found, hfound, rfl⟩ := ofTree_eq_ok_iff.1 hr
  rw [findings_of_clear h] at hfound
  show distinct (found.filterMap id) = _
  rw [distinct_eq_eraseDups, filterMap_of_mapM_eq_ok hfound, h.sources_findings,
    List.filterMap_filterMap]
  rfl

/-- A clear tree can be read if each of its references can be looked
up. -/
theorem exists_ofTree_of_clear (h : root.Clear) :
    (∃ r, ofTree isFile extensions here path source root = .ok r) ↔
      ∀ a n value, root.sub? a = some n → Syntax.Node.Refers source n value →
        ∃ o, Resolver.resolve isFile extensions here path value = .ok o := by
  rw [exists_ofTree_eq_ok_iff, findings_of_clear h]
  constructor
  · intro hall a n value hn hrefers
    obtain ⟨i, hi, rfl⟩ := List.mem_map.1 (h.mem_sources_iff.2 ⟨a, n, hn, hrefers⟩)
    exact hall i hi
  · intro hall i hi
    obtain ⟨a, n, hn, hrefers⟩ := h.mem_sources_iff.1 (List.mem_map_of_mem hi)
    exact hall a n i.source hn hrefers

/-- If each reference of a clear tree can be looked up, the tree can be
read. The dependencies are then what these resolve to, each once, in the
order in which the text comes to refer to them. -/
theorem dependencies_of_clear (h : root.Clear) :
    ((∃ r, ofTree isFile extensions here path source root = .ok r) ↔
      ∀ a n value, root.sub? a = some n → Syntax.Node.Refers source n value →
        ∃ o, Resolver.resolve isFile extensions here path value = .ok o) ∧
    ∀ r, ofTree isFile extensions here path source root = .ok r →
      (∀ d, d ∈ r.module.dependencies ↔
        ∃ a, LeadsTo isFile extensions here path source root a d) ∧
      r.module.dependencies.Nodup ∧
      r.module.dependencies.Pairwise fun d e =>
        ∃ a, LeadsTo isFile extensions here path source root a d ∧
          ∀ b, LeadsTo isFile extensions here path source root b e → a < b := by
  have haddress : ∀ a d, LeadsTo isFile extensions here path source root a d →
      a ∈ root.addresses := by
    intro a d hleads
    obtain ⟨n, value, hn, -, -⟩ := hleads
    exact Syntax.Node.mem_addresses_iff.2 ⟨n, hn⟩
  refine ⟨exists_ofTree_of_clear h, fun r hr => ?_⟩
  rw [dependencies_eq_eraseDups h hr]
  refine ⟨?_, nodup_eraseDups _, ?_⟩
  · intro d
    rw [List.mem_eraseDups, List.mem_filterMap]
    simp only [destination?_eq_some_iff h]
    constructor
    · intro hsome
      obtain ⟨a, -, ha⟩ := hsome
      exact ⟨a, ha⟩
    · intro hsome
      obtain ⟨a, ha⟩ := hsome
      exact ⟨a, haddress a d ha, ha⟩
  · refine (pairwise_eraseDups_filterMap root.pairwise_addresses _).imp ?_
    intro d e hfirst
    obtain ⟨a, -, ha, hall⟩ := hfirst
    refine ⟨a, (destination?_eq_some_iff h).1 ha, fun b hb => ?_⟩
    exact hall b (haddress b e hb) ((destination?_eq_some_iff h).2 hb)

-- ============================================== a module referred to twice

/-- A text that refers to one module twice. -/
def textOfUses : Bytes :=
  lineOf "export*from'./c';import'./b';import'./c'"

/-- A statement of this text, with the literal at its end. -/
def use (kind : Syntax.Kind) (start literal stop : Nat) : Syntax.Node :=
  onLine kind none true start stop [onLine .string (some .source) true literal stop []]

/-- The tree of this text. -/
def treeOfUses : Syntax.Node :=
  onLine (.other "program") none true 0 40
    [use .exportStatement 0 11 16, use .importStatement 17 23 28,
      use .importStatement 29 35 40]

theorem dependencies_of_clear_uses :
    treeOfUses.Clear ∧
    ∃ r, ofTree (fun _ => .ok true) [] "/" "/r/a.ts" textOfUses treeOfUses = .ok r ∧
      r.module.dependencies = ["/r/c", "/r/b"] ∧
      (∀ d, d ∈ r.module.dependencies ↔
        ∃ a, LeadsTo (fun _ => .ok true) [] "/" "/r/a.ts" textOfUses treeOfUses a d) ∧
      r.module.dependencies.Nodup ∧
      r.module.dependencies.Pairwise fun d e =>
        ∃ a, LeadsTo (fun _ => .ok true) [] "/" "/r/a.ts" textOfUses treeOfUses a d ∧
          ∀ b, LeadsTo (fun _ => .ok true) [] "/" "/r/a.ts" textOfUses treeOfUses b e →
            a < b := by
  have hclear : treeOfUses.Clear := by
    simp [treeOfUses, use, onLine, Syntax.Node.Clear.node_iff]
  have hread : ofTree (fun _ => .ok true) [] "/" "/r/a.ts" textOfUses treeOfUses =
      .ok ⟨⟨"/r/a.ts",
        [⟨"./c", .asNamespace, ["*"]⟩, ⟨"./b", .named, []⟩, ⟨"./c", .named, []⟩],
        [⟨"*", .reExport⟩], ["/r/c", "/r/b"], []⟩, 0⟩ := by
    cbv
  exact ⟨hclear, _, hread, rfl, (dependencies_of_clear hclear).2 _ hread⟩

end ModuleAtlas.Reading
