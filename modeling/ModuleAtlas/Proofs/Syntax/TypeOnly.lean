/-
Imports of types only.

# Statements with a clause

An import statement says in a word of its own, `type` or `typeof`, that it
takes types only (`SaysType`). If it has an import clause, the import is of
this kind exactly if the statement says so, whatever the clause holds and
in whatever order: each child of the clause leaves the kind as it is where
the word stands, and sets one of the others where it does not
(`Clause.typeOnly_add_iff`, `Clause.typeOnly_foldlM_iff`).

# Statements without one

A statement that takes a module for its effects, or by a `require` of its
own, is given its kind before the word is looked at, so there the word
counts for nothing. The kind says whether the statement does exactly where
there is a clause or no word (`typeOnly_iff`), and does not for a `require`
of types (`required_not_typeOnly`).
-/
import ModuleAtlas.Proofs.Success
import ModuleAtlas.Proofs.Syntax.Address
import ModuleAtlas.Syntax.Findings

namespace ModuleAtlas.Syntax.Node

open Success

variable {ask : Accessor} {source : Bytes} {n child : Node} {i : Import} {typeOnly : Bool}
    {c d : Clause}

-- ================================================== words and shapes

/-- The statement has the word `type` or `typeof` of its own. -/
def SaysType (n : Node) : Prop :=
  ∃ c ∈ n.children, c.kind = .typeWord ∨ c.kind = .typeofWord

theorem isTypeOnly_iff : n.isTypeOnly = true ↔ n.SaysType := by
  simp [isTypeOnly, SaysType]

/-- What an import statement is made for: the effects of a module, the
names in a clause, or the module itself by a `require` of its own. -/
inductive Shape where
  | effects
  | clause
  | required
  deriving Repr, DecidableEq

def shape (n : Node) : Shape :=
  if (n.firstOfKind .importRequireClause).isSome then .required
  else if (n.firstOfKind .importClause).isSome then .clause
  else .effects

-- ============================================================== clauses

/-- A child of a clause leaves the kind as it is, or sets it to that of other
imports, which it does in no statement of types only. -/
theorem Clause.kind_add (h : Clause.add ask source typeOnly c child = .ok d) :
    d.kind = c.kind ∨ typeOnly = false ∧ d.kind ≠ .typeOnly := by
  have hdecide : ∀ kind : ImportKind, kind ≠ .typeOnly →
      (if typeOnly then c.kind else kind) = c.kind ∨
        typeOnly = false ∧ (if typeOnly then c.kind else kind) ≠ .typeOnly := by
    intro kind hne
    cases typeOnly with
    | true => exact .inl rfl
    | false => exact .inr ⟨rfl, hne⟩
  unfold Clause.add at h
  dsimp only at h
  split at h
  · obtain rfl := Except.ok.inj h
    exact hdecide .default (by decide)
  · obtain rfl := Except.ok.inj h
    exact hdecide .asNamespace (by decide)
  · obtain ⟨names, -, hrest⟩ := bind_eq_ok_iff.1 h
    obtain rfl := Except.ok.inj hrest
    dsimp only
    split
    · exact .inl rfl
    · exact hdecide .named (by decide)
  · obtain rfl := Except.ok.inj h
    exact .inl rfl

theorem Clause.typeOnly_add_iff (h : Clause.add ask source typeOnly c child = .ok d)
    (hc : c.kind = .typeOnly ↔ typeOnly = true) : d.kind = .typeOnly ↔ typeOnly = true := by
  rcases kind_add h with heq | ⟨hword, hne⟩
  · rwa [heq]
  · simp [hword, hne]

/-- So all children together leave the kind what the statement says. -/
theorem Clause.typeOnly_foldlM_iff {children : List Node}
    (h : children.foldlM (Clause.add ask source typeOnly) c = .ok d)
    (hc : c.kind = .typeOnly ↔ typeOnly = true) : d.kind = .typeOnly ↔ typeOnly = true :=
  keeps_of_foldlM_eq_ok (P := fun c : Clause => c.kind = .typeOnly ↔ typeOnly = true) h
    (fun _ _ _ _ hadd => typeOnly_add_iff hadd) hc

-- =========================================================== statements

/-- The kind of an import, by the shape of the statement that makes it. -/
theorem kind_of_importOf? (h : n.importOf? ask source = .ok (some i)) :
    (n.shape = .required ∧ i.kind = .commonjs) ∨ (n.shape = .effects ∧ i.kind = .named) ∨
      (n.shape = .clause ∧ (i.kind = .typeOnly ↔ n.SaysType)) := by
  unfold importOf? at h
  unfold shape
  cases hrequire : n.firstOfKind .importRequireClause with
  | some clause =>
      rw [hrequire] at h
      obtain ⟨s, -, hrest⟩ := bind_eq_ok_iff.1 h
      split at hrest
      · cases hrest
      · obtain rfl := Option.some.inj (Except.ok.inj hrest)
        exact .inl ⟨rfl, rfl⟩
  | none =>
      rw [hrequire] at h
      obtain ⟨s, -, hrest⟩ := bind_eq_ok_iff.1 h
      split at hrest
      · cases hrest
      · cases hclause : n.firstOfKind .importClause with
        | none =>
            rw [hclause] at hrest
            obtain rfl := Option.some.inj (Except.ok.inj hrest)
            exact .inr (.inl ⟨rfl, rfl⟩)
        | some clause =>
            rw [hclause] at hrest
            obtain ⟨d, hfold, hrest⟩ := bind_eq_ok_iff.1 hrest
            obtain rfl := Option.some.inj (Except.ok.inj hrest)
            have hstart : (if n.isTypeOnly then ImportKind.typeOnly else .named) = .typeOnly ↔
                n.isTypeOnly = true := by
              cases n.isTypeOnly <;> decide
            have hend := Clause.typeOnly_foldlM_iff hfold hstart
            exact .inr (.inr ⟨rfl, hend.trans isTypeOnly_iff⟩)

/-- An import is one of types only exactly if its statement says so and has a
clause. So the kind tells what the statement says exactly where there is a
clause or no word. -/
theorem typeOnly_iff (h : n.importOf? ask source = .ok (some i)) :
    (i.kind = .typeOnly ↔ n.SaysType ∧ n.shape = .clause) ∧
    ((i.kind = .typeOnly ↔ n.SaysType) ↔ (n.SaysType → n.shape = .clause)) ∧
    (n.shape = .required → i.kind = .commonjs) ∧ (n.shape = .effects → i.kind = .named) := by
  rcases kind_of_importOf? h with ⟨hshape, hkind⟩ | ⟨hshape, hkind⟩ | ⟨hshape, hkind⟩
  · simp [hshape, hkind]
  · simp [hshape, hkind]
  · simp [hshape, hkind]

-- ======================================================== two statements

def combinedTypes : Bytes := lineOf "import type A, { B as C } from './m'"

def treeOfCombinedTypes : Node :=
  onLine .importStatement none true 0 36 [
    onLine .typeWord none false 7 11 [],
    onLine .importClause none true 12 25 [
      onLine .identifier none true 12 13 [],
      onLine .namedImports none true 15 25 [
        onLine .importSpecifier none true 17 23 [
          onLine .identifier (some .name) true 17 18 [],
          onLine .identifier (some .newName) true 22 23 []]]],
    onLine .string (some .source) true 31 36 []]

/-- Neither a default name nor names in braces make another import of what
says `type`. -/
theorem typeOnly_combined :
    treeOfCombinedTypes.importOf? child? combinedTypes =
        .ok (some ⟨"./m", .typeOnly, ["A", "C"]⟩) ∧
      treeOfCombinedTypes.SaysType ∧ treeOfCombinedTypes.shape = .clause := by
  have h : treeOfCombinedTypes.importOf? child? combinedTypes =
      .ok (some ⟨"./m", .typeOnly, ["A", "C"]⟩) := by decide +kernel
  exact ⟨h, (typeOnly_iff h).1.1 rfl⟩

def requiredTypes : Bytes := lineOf "import type fs = require('fs')"

def treeOfRequiredTypes : Node :=
  onLine .importStatement none true 0 30 [
    onLine .typeWord none false 7 11 [],
    onLine .importRequireClause none true 12 30 [
      onLine .identifier none true 12 14 [],
      onLine .string (some .source) true 25 29 []]]

/-- A `require` of types is none of types only. -/
theorem required_not_typeOnly :
    ¬ ∀ (source : Bytes) (n : Node) (i : Import), n.kind = .importStatement →
      n.importOf? child? source = .ok (some i) → (i.kind = .typeOnly ↔ n.SaysType) := by
  intro h
  have hread : treeOfRequiredTypes.importOf? child? requiredTypes =
      .ok (some ⟨"fs", .commonjs, ["fs"]⟩) := by decide +kernel
  have hsays : treeOfRequiredTypes.SaysType := ⟨_, List.mem_cons_self, .inl rfl⟩
  exact absurd ((h _ _ _ rfl hread).2 hsays) (by decide)

end ModuleAtlas.Syntax.Node
