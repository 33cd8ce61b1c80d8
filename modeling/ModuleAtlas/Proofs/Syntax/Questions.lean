/-
What the reading of a node can fail of.

To read a node, it and others are asked for children in roles. The
reading fails only as one of these questions does, and with its text.

Which nodes are asked is kept open here. Any property will do that passes
from a node to its children and to the answers that it gives
(`Covers`): all nodes have one, and so have the nodes of a tree that
answers each question.
-/
import ModuleAtlas.Proofs.Success
import ModuleAtlas.Proofs.Syntax.Address
import ModuleAtlas.Syntax.Findings

namespace ModuleAtlas.Syntax

open Success

/-- The property `Q` passes from a node to its children and its answers,
and a node with this property fails to answer with a text in `P` only. -/
structure Covers (ask : Accessor) (Q : Node → Prop) (P : String → Prop) :
    Prop where
  child : ∀ {n c : Node}, Q n → c ∈ n.children → Q c
  answer : ∀ {n c : Node} {role}, Q n → ask n role = .ok (some c) → Q c
  question : ∀ {n : Node} role, Q n → FailsAs P (ask n role)

/-- All nodes together answer or fail to. -/
theorem covers_all (ask : Accessor) :
    Covers ask (fun _ => True) fun text => ∃ n role, ask n role = .error text where
  child _ _ := trivial
  answer _ _ := trivial
  question {n} role _ _ he := ⟨n, role, he⟩

namespace Covers

variable {ask : Accessor} {Q : Node → Prop} {P : String → Prop} {n c : Node}
    {source : Bytes} {kind : Kind}

theorem namedChild (h : Covers ask Q P) (hn : Q n) (hc : c ∈ n.namedChildren) :
    Q c :=
  h.child hn (List.mem_of_mem_filter hc)

theorem firstOfKind (h : Covers ask Q P) (hn : Q n)
    (hc : n.firstOfKind kind = some c) : Q c :=
  h.child hn (List.mem_of_find?_eq_some hc)

-- =================================================== import statements

theorem specifierNames (h : Covers ask Q P) (hn : Q n) :
    FailsAs P (n.specifierNames ask source kind) := by
  refine FailsAs.bind (FailsAs.mapM fun c hc => ?_) fun found _ => failsAs_pure _
  have hc := h.namedChild hn (List.mem_of_mem_filter hc)
  refine (h.question .newName hc).bind fun o _ => ?_
  cases o with
  | some c => exact failsAs_pure _
  | none => exact h.question .name hc

theorem clauseAdd (h : Covers ask Q P) (hn : Q n) {typeOnly : Bool}
    (clause : Node.Clause) : FailsAs P (clause.add ask source typeOnly n) := by
  unfold Node.Clause.add
  dsimp only
  split
  · exact failsAs_pure _
  · exact failsAs_pure _
  · exact (h.specifierNames hn).bind fun names _ => failsAs_pure _
  · exact failsAs_pure _

theorem importOf? (h : Covers ask Q P) (hn : Q n) :
    FailsAs P (n.importOf? ask source) := by
  unfold Node.importOf?
  cases hclause : n.firstOfKind .importRequireClause with
  | some clause =>
      refine (h.question .source (h.firstOfKind hn hclause)).bind fun s _ => ?_
      split
      · exact failsAs_pure _
      · exact failsAs_pure _
  | none =>
      refine (h.question .source hn).bind fun s _ => ?_
      split
      · exact failsAs_pure _
      · cases hnames : n.firstOfKind .importClause with
        | none => exact failsAs_pure _
        | some clause =>
            have hclause := h.firstOfKind hn hnames
            refine FailsAs.bind (FailsAs.foldlM (fun c hc clause => ?_) _)
              fun c _ => failsAs_pure _
            exact h.clauseAdd (h.namedChild hclause hc) clause

-- ==================================================== calls of require

theorem patternNames (h : Covers ask Q P) (hn : Q n) :
    FailsAs P (n.patternNames ask source) := by
  refine FailsAs.bind (FailsAs.mapM fun part hpart => ?_) fun found _ => failsAs_pure _
  have hpart := h.namedChild hn hpart
  unfold Node.patternName?
  split
  · exact failsAs_pure _
  · exact h.question .value hpart
  · exact h.question .left hpart
  · exact failsAs_pure _
  · exact failsAs_pure _

theorem declaratorNames (h : Covers ask Q P) (hn : Q n) :
    FailsAs P (n.declaratorNames ask source) := by
  refine (h.question .name hn).bind fun o ho => ?_
  cases o with
  | none => exact failsAs_pure _
  | some name =>
      dsimp only
      split
      · exact failsAs_pure _
      · exact h.patternNames (h.answer hn ho)
      · exact failsAs_pure _

theorem requireOf? (h : Covers ask Q P) {parent : Option Node} (hn : Q n)
    (hparent : ∀ p ∈ parent, Q p) :
    FailsAs P (n.requireOf? ask source parent) := by
  refine (h.question .function hn).bind fun o _ => ?_
  cases o with
  | none => exact failsAs_pure _
  | some function =>
      dsimp only
      split
      · exact failsAs_pure _
      · refine (h.question .arguments hn).bind fun o _ => ?_
        cases o with
        | none => exact failsAs_pure _
        | some arguments =>
            dsimp only
            split
            · exact failsAs_pure _
            · cases parent with
              | none => exact failsAs_pure _
              | some p =>
                  dsimp only
                  split
                  · exact (h.declaratorNames (hparent p rfl)).bind
                      fun names _ => failsAs_pure _
                  · exact failsAs_pure _

-- =================================================== export statements

/-- The names of a declaration are those of one below it, if it is ambient,
so this is an induction on the tree, with one on the list of children
inside. -/
theorem declaredNames (h : Covers ask Q P) (hn : Q n) :
    FailsAs P (n.declaredNames ask source) := by
  induction n using Node.induction with
  | h l cs ih =>
      have hfirst : ∀ ds, ds ⊆ cs →
          FailsAs P (Node.firstDeclaredNames ask source ds) := by
        intro ds hds
        induction ds with
        | nil => exact failsAs_pure _
        | cons d ds ihds =>
            have hd : d ∈ cs := hds (List.mem_cons_self ..)
            have hrest := ihds fun c hc => hds (List.mem_cons_of_mem _ hc)
            unfold Node.firstDeclaredNames
            split
            · refine (ih d hd (h.child hn hd)).bind fun names _ => ?_
              split
              · exact hrest
              · exact failsAs_pure _
            · exact hrest
      unfold Node.declaredNames
      split
      · exact hfirst cs (List.Subset.refl _)
      · split
        · exact (h.question .name hn).bind fun name _ => failsAs_pure _
        · split
          · refine FailsAs.bind (FailsAs.mapM fun d hd => ?_) fun names _ => failsAs_pure _
            exact h.question .name (h.namedChild hn (List.mem_of_mem_filter hd))
          · exact failsAs_pure _

end Covers

end ModuleAtlas.Syntax
