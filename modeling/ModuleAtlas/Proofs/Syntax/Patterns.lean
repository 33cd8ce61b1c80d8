/-
Names that a pattern binds.

# Patterns

A pattern is a name, or it is made of patterns for the parts of a value
(`MadeOf`): the parts between braces or brackets, each maybe under a key or
with a default, and the rest. It binds the names in it, in their order,
however deep they stand (`Binds`).

# What is read of one

Of each part between the braces one node is looked at, which counts if it is
a name. So the name of a part is found if the part is a name or is made of
one directly (`Direct`), and no name in a part that goes deeper is: neither
one under a key with a default nor one in a pattern of its own. Nothing else
is found, and the order is that of the text (`patternNames_direct`). All names
are found exactly if every part is direct or binds nothing, which not every
pattern is made of (`defaulted_not_found`).
-/
import ModuleAtlas.Proofs.Syntax.References
import ModuleAtlas.Proofs.Syntax.TypeOnly

namespace ModuleAtlas.Syntax

open Success

-- ============================================================= patterns

namespace Kind

def isComment : Kind → Bool
  | other name => name == "comment" || name == "html_comment"
  | _ => false

/-- What stands in the place of a pattern, or beside one, and binds nothing:
members that a value is assigned to, and comments. -/
def isNoBinding : Kind → Bool
  | other name => name ∈ ["member_expression", "subscript_expression", "non_null_expression",
      "undefined"] || (other name).isComment
  | _ => false

theorem exists_other_of_isNoBinding {kind : Kind} (h : kind.isNoBinding = true) :
    ∃ name, kind = other name := by
  cases kind with
  | other name => exact ⟨name, rfl⟩
  | _ => cases h

/-- What can stand between the braces of an object pattern. -/
def isPart : Kind → Bool
  | shorthandPattern | pairPattern | assignmentPattern | restPattern => true
  | kind => kind.isComment

end Kind

namespace Node

variable {source : Bytes} {n part pattern : Node} {parts : List Node} {names : List String}

/-- The node is a name that a pattern binds, and so the whole of a pattern. -/
def IsName (n : Node) : Prop :=
  n.kind = .identifier ∨ n.kind = .shorthandPattern

instance : Decidable n.IsName :=
  inferInstanceAs (Decidable (_ ∨ _))

/-- A pattern that is no name is made of these. -/
inductive MadeOf (n : Node) : List Node → Prop
  | object (hn : n.kind = .objectPattern)
      (hparts : ∀ part ∈ n.namedChildren, part.kind.isPart = true) : MadeOf n n.namedChildren
  | array (hn : n.kind = .other "array_pattern") : MadeOf n n.namedChildren
  | pair {t : Node} (hn : n.kind = .pairPattern) (ht : n.child? .value = .ok (some t)) :
      MadeOf n [t]
  | defaulted {t : Node}
      (hn : n.kind = .assignmentPattern ∨ n.kind = .other "assignment_pattern")
      (ht : n.child? .left = .ok (some t)) : MadeOf n [t]
  /-- A name in short form stands between braces only, not behind the sign. -/
  | rest {sign t : Node} (hn : n.kind = .restPattern)
      (hchildren : n.children.filter (!·.kind.isComment) = [sign, t])
      (hsign : sign.kind = .other "...") (ht : t.kind ≠ .shorthandPattern) : MadeOf n [t]
  | nothing (hn : n.kind.isNoBinding = true) : MadeOf n []

/-- The pattern binds these names, in the order of the text. -/
inductive Binds (source : Bytes) : Node → List String → Prop
  | name {n : Node} (hn : n.IsName) : Binds source n [n.text source]
  | parts {n : Node} {parts : List Node} {bound : List (List String)} (hmade : MadeOf n parts)
      (hlength : parts.length = bound.length)
      (hbound : ∀ p ∈ parts.zip bound, Binds source p.1 p.2) : Binds source n bound.flatten

/-- The part is a name or made of one directly. -/
def Direct (part : Node) : Prop :=
  part.IsName ∨ ∃ t, MadeOf part [t] ∧ t.IsName

theorem MadeOf.not_isName (h : MadeOf n parts) : ¬ n.IsName := by
  have hkind : n.kind ≠ .identifier ∧ n.kind ≠ .shorthandPattern := by
    cases h with
    | object hn => simp [hn]
    | array hn => simp [hn]
    | pair hn => simp [hn]
    | defaulted hn => rcases hn with hn | hn <;> simp [hn]
    | rest hn => simp [hn]
    | nothing hn => constructor <;> (intro h; simp [h, Kind.isNoBinding] at hn)
  exact fun hname => hname.elim hkind.1 hkind.2

/-- What a pattern is made of is told by its kind. -/
theorem MadeOf.unique {others : List Node} (h : MadeOf n parts) (h' : MadeOf n others) :
    parts = others := by
  cases h with
  | object hn => cases h' <;> simp_all [Kind.isNoBinding]
  | array hn => cases h' <;> simp_all [Kind.isNoBinding, Kind.isComment]
  | pair hn ht => cases h' <;> simp_all [Kind.isNoBinding]
  | defaulted hn ht =>
      rcases hn with hn | hn <;> cases h' <;> simp_all [Kind.isNoBinding, Kind.isComment]
  | rest hn hchildren => cases h' <;> simp_all [Kind.isNoBinding]
  | nothing hn =>
      cases h' with
      | defaulted hn' =>
          rcases hn' with hn' | hn' <;> simp [hn', Kind.isNoBinding, Kind.isComment] at hn
      | _ => simp_all [Kind.isNoBinding, Kind.isComment]

/-- A pattern binds the same names however it is read. -/
theorem Binds.unique {others : List String} (h : Binds source n names)
    (h' : Binds source n others) : names = others := by
  induction h generalizing others with
  | name hn =>
      cases h' with
      | name => rfl
      | parts hmade => exact absurd hn hmade.not_isName
  | @parts n parts bound hmade hlength hbound ih =>
      cases h' with
      | name hn => exact absurd hn hmade.not_isName
      | @parts _ parts' bound' hmade' hlength' hbound' =>
          obtain rfl := hmade.unique hmade'
          -- both list the names of the same parts, and agree part by part
          congr 1
          refine List.ext_getElem (hlength.symm.trans hlength') fun i hi hi' => ?_
          have hzip : i < (parts.zip bound).length := by rw [List.length_zip]; omega
          have hzip' : i < (parts.zip bound').length := by rw [List.length_zip]; omega
          have hmem := List.getElem_mem hzip
          have hmem' := List.getElem_mem hzip'
          rw [List.getElem_zip] at hmem hmem'
          exact ih _ hmem (hbound' _ hmem')

theorem binds_parts_iff (hmade : MadeOf n parts) :
    Binds source n names ↔ ∃ bound, List.Forall₂ (Binds source) parts bound ∧
      names = bound.flatten := by
  constructor
  · intro h
    cases h with
    | name hn => exact absurd hn hmade.not_isName
    | parts hmade' hlength hbound =>
        obtain rfl := hmade.unique hmade'
        exact ⟨_, List.forall₂_iff_zip.2 ⟨hlength, fun hp => hbound _ hp⟩, rfl⟩
  · intro h
    obtain ⟨bound, hbound, rfl⟩ := h
    obtain ⟨hlength, hzip⟩ := List.forall₂_iff_zip.1 hbound
    exact .parts hmade hlength fun _ hp => hzip hp

theorem Binds.madeOf_object (h : Binds source pattern names)
    (hpattern : pattern.kind = .objectPattern) :
    MadeOf pattern pattern.namedChildren ∧
      ∀ part ∈ pattern.namedChildren, part.kind.isPart = true := by
  cases h with
  | name hn => rcases hn with hn | hn <;> simp [hpattern] at hn
  | parts hmade =>
      cases hmade with
      | object hn hparts => exact ⟨.object hn hparts, hparts⟩
      | array hn => simp [hpattern] at hn
      | pair hn => simp [hpattern] at hn
      | defaulted hn => simp [hpattern] at hn
      | rest hn => simp [hpattern] at hn
      | nothing hn => simp [hpattern, Kind.isNoBinding] at hn

-- ============================================================ what is read

/-- The name that is read off a node, if it is one. -/
def boundName? (source : Bytes) (n : Node) : Option String :=
  if n.IsName then some (n.text source) else none

/-- What is read of a part: the names that it binds if it is direct, and
nothing if it is not. -/
def Reads (source : Bytes) (part : Node) (names : List String) : Prop :=
  (part.Direct ∧ Binds source part names) ∨ (¬ part.Direct ∧ names = [])

theorem direct_iff {t : Node} (hmade : MadeOf part [t]) : part.Direct ↔ t.IsName := by
  constructor
  · intro h
    rcases h with hname | ⟨t', hmade', hname⟩
    · exact absurd hname hmade.not_isName
    · obtain rfl := List.singleton_inj.1 (hmade.unique hmade')
      exact hname
  · exact fun h => .inr ⟨t, hmade, h⟩

/-- The one pattern that a part is made of tells what is read of the part. -/
theorem MadeOf.reads {t : Node} (hmade : MadeOf part [t]) :
    Reads source part (boundName? source t).toList := by
  unfold boundName?
  by_cases hname : t.IsName
  · rw [if_pos hname]
    exact .inl ⟨(direct_iff hmade).2 hname,
      (binds_parts_iff hmade).2 ⟨[[t.text source]], .cons (.name hname) .nil, rfl⟩⟩
  · rw [if_neg hname]
    exact .inr ⟨fun h => hname ((direct_iff hmade).1 h), rfl⟩

/-- Behind the sign, the first identifier is the pattern that stands there or
there is none. -/
theorem firstOfKind_identifier_rest {sign t : Node}
    (hchildren : n.children.filter (!·.kind.isComment) = [sign, t])
    (hsign : sign.kind = .other "...") :
    n.firstOfKind .identifier = if t.kind = .identifier then some t else none := by
  have hfind : n.firstOfKind .identifier =
      (n.children.filter (!·.kind.isComment)).find? (·.kind == .identifier) := by
    rw [List.find?_filter]
    unfold firstOfKind
    congr 1
    funext c
    by_cases hc : c.kind = .identifier
    · simp [hc, Kind.isComment]
    · simp [hc]
  rw [hfind, hchildren]
  by_cases ht : t.kind = .identifier
  · simp [hsign, ht]
  · simp [hsign, ht]

/-- One node of a part is looked at, and it is a name exactly if the part is
direct. -/
theorem exists_patternName? (hpart : part.kind.isPart = true) (h : Binds source part names) :
    ∃ o, patternName? child? part = .ok o ∧
      Reads source part (o.bind (boundName? source)).toList := by
  unfold patternName?
  cases h with
  | name hn =>
      rcases hn with hn | hn
      · rw [hn] at hpart
        cases hpart
      · rw [hn]
        refine ⟨_, rfl, .inl ⟨.inl (.inr hn), ?_⟩⟩
        have hname : part.IsName := .inr hn
        simpa [boundName?, hname] using (.name hname : Binds source part _)
  | parts hmade =>
      cases hmade with
      | object hn =>
          rw [hn] at hpart
          cases hpart
      | array hn =>
          rw [hn] at hpart
          cases hpart
      | pair hn ht =>
          rw [hn]
          exact ⟨_, ht, MadeOf.reads (.pair hn ht)⟩
      | defaulted hn ht =>
          rcases hn with hkind | hkind
          · rw [hkind]
            exact ⟨_, ht, MadeOf.reads (.defaulted (.inl hkind) ht)⟩
          · rw [hkind] at hpart
            cases hpart
      | @rest sign t hn hchildren hsign ht =>
          rw [hn]
          refine ⟨_, rfl, ?_⟩
          have hreads : Reads source part (boundName? source t).toList :=
            MadeOf.reads (.rest hn hchildren hsign ht)
          rw [firstOfKind_identifier_rest hchildren hsign]
          by_cases hkind : t.kind = .identifier
          · rw [if_pos hkind]
            exact hreads
          · rw [if_neg hkind]
            have hname : ¬ t.IsName := fun h => h.elim hkind ht
            simpa [boundName?, hname] using hreads
      | nothing hn =>
          have hnone : ¬ part.Direct := by
            intro h
            rcases h with hname | ⟨t, hmade, -⟩
            · exact (MadeOf.nothing hn).not_isName hname
            · cases (MadeOf.nothing hn).unique hmade
          obtain ⟨name, hother⟩ := Kind.exists_other_of_isNoBinding hn
          rw [hother]
          exact ⟨none, rfl, .inr ⟨hnone, rfl⟩⟩

/-- What is read of all parts stands in what they bind. -/
theorem sublist_of_reads {parts : List Node} {read bound : List (List String)}
    (hread : List.Forall₂ (Reads source) parts read)
    (hbound : List.Forall₂ (Binds source) parts bound) :
    read.flatten.Sublist bound.flatten ∧
      (read.flatten = bound.flatten ↔
        ∀ part ∈ parts, part.Direct ∨ Binds source part []) := by
  induction hread generalizing bound with
  | nil =>
      cases hbound
      simp
  | @cons part names parts read hnames _ ih =>
      cases hbound with
      | @cons _ names' _ bound hnames' hrest =>
        obtain ⟨hsublist, hiff⟩ := ih hrest
        have hone : names.Sublist names' ∧
            (names = names' ↔ part.Direct ∨ Binds source part []) := by
          rcases hnames with ⟨hdirect, hbinds⟩ | ⟨hnot, rfl⟩
          · obtain rfl := hbinds.unique hnames'
            exact ⟨List.Sublist.refl _, iff_of_true rfl (.inl hdirect)⟩
          · refine ⟨List.nil_sublist _, ?_⟩
            constructor
            · intro h
              rw [h]
              exact .inr hnames'
            · intro h
              exact (h.resolve_left hnot).unique hnames'
        rw [List.flatten_cons, List.flatten_cons, List.forall_mem_cons]
        refine ⟨hone.1.append hsublist, ?_⟩
        rw [← hone.2, ← hiff]
        constructor
        · intro h
          have hlength := congrArg List.length h
          rw [List.length_append, List.length_append] at hlength
          have hle := hone.1.length_le
          have hle' := hsublist.length_le
          exact ⟨hone.1.eq_of_length (by omega), hsublist.eq_of_length (by omega)⟩
        · intro h
          rw [h.1, h.2]

/-- All parts can be looked at, one after the other. -/
theorem exists_mapM_patternName? (hparts : ∀ part ∈ parts, part.kind.isPart = true)
    {bound : List (List String)} (h : List.Forall₂ (Binds source) parts bound) :
    ∃ looked read, parts.mapM (patternName? child?) = .ok looked ∧
      List.Forall₂ (Reads source) parts read ∧
      looked.filterMap (·.bind (boundName? source)) = read.flatten := by
  induction h with
  | nil => exact ⟨[], [], rfl, .nil, rfl⟩
  | @cons part names parts bound hpart _ ih =>
      rw [List.forall_mem_cons] at hparts
      obtain ⟨o, ho, hreads⟩ := exists_patternName? hparts.1 hpart
      obtain ⟨looked, read, hlooked, hrest, hnames⟩ := ih hparts.2
      refine ⟨o :: looked, (o.bind (boundName? source)).toList :: read, ?_,
        .cons hreads hrest, ?_⟩
      · exact mapM_eq_ok_iff.2 (.cons ho (mapM_eq_ok_iff.1 hlooked))
      · rw [List.flatten_cons, ← hnames, List.filterMap_cons]
        cases o.bind (boundName? source) <;> rfl

/-- The names that are read off an object pattern. -/
theorem patternNames_eq {looked : List (Option Node)}
    (h : pattern.namedChildren.mapM (patternName? child?) = .ok looked) :
    pattern.patternNames child? source =
      .ok (looked.filterMap (·.bind (boundName? source))) := by
  unfold patternNames
  rw [h]
  rfl

/-- A call of `require` with a pattern before it is given the names that are
read off the pattern. -/
theorem requireOf?_of_declares {declarator call : Node} {path : String}
    (hdeclarator : declarator.kind = .variableDeclarator)
    (hname : declarator.child? .name = .ok (some pattern))
    (hpattern : pattern.kind = .objectPattern)
    (hcall : call.kind = .callExpression) (hrefers : Refers source call path)
    (hnames : pattern.patternNames child? source = .ok names) :
    call.requireOf? child? source (some declarator) = .ok (some ⟨path, .commonjs, names⟩) := by
  have hdeclares : declaratorNames child? source declarator = .ok names := by
    unfold declaratorNames
    rw [hname, ok_bind]
    dsimp only
    rw [hpattern]
    exact hnames
  cases hrefers with
  | importing hn => exact absurd (hn.symm.trans hcall) (by decide)
  | importingRequired hn => exact absurd (hn.symm.trans hcall) (by decide)
  | exporting hn => exact absurd (hn.symm.trans hcall) (by decide)
  | @requiring function arguments s _ hfunction hidentifier hrequire harguments hs hstring =>
      unfold requireOf?
      rw [hfunction, ok_bind]
      dsimp only
      rw [if_neg (by simp [hidentifier, hrequire]), harguments, ok_bind]
      dsimp only
      rw [stringValue?_eq_some_iff.2 ⟨s, hs, hstring, rfl⟩]
      dsimp only
      rw [if_pos hdeclarator, hdeclares]
      rfl

/-- What is read of an object pattern are the names of its direct parts, in
the order of the text, and an import by `require` is given just these. They
are all that the pattern binds exactly if every other part binds nothing. -/
theorem patternNames_direct (h : Binds source pattern names)
    (hpattern : pattern.kind = .objectPattern) :
    ∃ read : List (List String),
      List.Forall₂ (Reads source) pattern.namedChildren read ∧
      pattern.patternNames child? source = .ok read.flatten ∧
      read.flatten.Sublist names ∧
      (read.flatten = names ↔
        ∀ part ∈ pattern.namedChildren, part.Direct ∨ Binds source part []) ∧
      ∀ (declarator call : Node) (path : String), declarator.kind = .variableDeclarator →
        declarator.child? .name = .ok (some pattern) → call.kind = .callExpression →
        Refers source call path →
        call.requireOf? child? source (some declarator) =
          .ok (some ⟨path, .commonjs, read.flatten⟩) := by
  obtain ⟨hmade, hparts⟩ : MadeOf pattern pattern.namedChildren ∧
      ∀ part ∈ pattern.namedChildren, part.kind.isPart = true :=
    h.madeOf_object hpattern
  obtain ⟨bound, hbound, rfl⟩ := (binds_parts_iff hmade).1 h
  obtain ⟨looked, read, hlooked, hread, hfound⟩ := exists_mapM_patternName? hparts hbound
  obtain ⟨hsublist, hall⟩ := sublist_of_reads hread hbound
  have hnames : pattern.patternNames child? source = .ok read.flatten := by
    rw [patternNames_eq hlooked, hfound]
  refine ⟨read, hread, hnames, hsublist, hall, ?_⟩
  intro declarator call path hdeclarator hname hcall hrefers
  exact requireOf?_of_declares hdeclarator hname hpattern hcall hrefers hnames

-- ======================================================== two patterns

def mixed : Bytes := lineOf "const \x7b a, b: \x7b c \x7d, d = 1, ...e \x7d = require('./x')"

def nestedPart : Node :=
  onLine .pairPattern none true 11 19 [
    onLine (.other "property_identifier") (some (.other "key")) true 11 12 [],
    onLine (.other ":") none false 12 13 [],
    onLine .objectPattern (some .value) true 14 19 [
      onLine (.other "\x7b") none false 14 15 [],
      onLine .shorthandPattern none true 16 17 [],
      onLine (.other "\x7d") none false 18 19 []]]

def mixedPattern : Node :=
  onLine .objectPattern (some .name) true 6 34 [
    onLine (.other "\x7b") none false 6 7 [],
    onLine .shorthandPattern none true 8 9 [],
    onLine (.other ",") none false 9 10 [],
    nestedPart,
    onLine (.other ",") none false 19 20 [],
    onLine .assignmentPattern none true 21 26 [
      onLine .shorthandPattern (some .left) true 21 22 [],
      onLine .equalsSign none false 23 24 [],
      onLine (.other "number") (some (.other "right")) true 25 26 []],
    onLine (.other ",") none false 26 27 [],
    onLine .restPattern none true 28 32 [
      onLine (.other "...") none false 28 31 [],
      onLine .identifier none true 31 32 []],
    onLine (.other "\x7d") none false 33 34 []]

def mixedCall : Node :=
  onLine .callExpression (some .value) true 37 51 [
    onLine .identifier (some .function) true 37 44 [],
    onLine (.other "arguments") (some .arguments) true 44 51 [
      onLine (.other "(") none false 44 45 [],
      onLine .string none true 45 50 [],
      onLine (.other ")") none false 50 51 []]]

def mixedDeclarator : Node :=
  onLine .variableDeclarator none true 6 51 [
    mixedPattern, onLine .equalsSign none false 35 36 [], mixedCall]

theorem Binds.of_text {text : String} (hn : n.IsName) (htext : n.text source = text) :
    Binds source n [text] :=
  htext ▸ .name hn

theorem Binds.of_one {t : Node} (hmade : MadeOf n [t]) (h : Binds source t names) :
    Binds source n names :=
  (binds_parts_iff hmade).2 ⟨[names], .cons h .nil, List.flatten_singleton.symm⟩

theorem binds_mixedPattern : Binds mixed mixedPattern ["a", "c", "d", "e"] := by
  refine (binds_parts_iff (.object rfl (by decide))).2 ⟨[["a"], ["c"], ["d"], ["e"]], ?_, rfl⟩
  refine .cons ?short (.cons ?nested (.cons ?defaulted (.cons ?rest .nil)))
  case short => exact .of_text (.inr rfl) (by decide +kernel)
  case nested =>
    refine .of_one (.pair rfl rfl) ?_
    refine (binds_parts_iff (.object rfl (by decide))).2 ⟨[["c"]], .cons ?_ .nil, rfl⟩
    exact .of_text (.inr rfl) (by decide +kernel)
  case defaulted =>
    exact .of_one (.defaulted (.inl rfl) rfl) (.of_text (.inr rfl) (by decide +kernel))
  case rest =>
    exact .of_one (.rest rfl rfl rfl (by decide)) (.of_text (.inl rfl) (by decide +kernel))

/-- The names beside a pattern within a pattern are given to the import. -/
theorem patternNames_direct_mixed :
    Binds mixed mixedPattern ["a", "c", "d", "e"] ∧ mixedPattern.kind = .objectPattern ∧
      mixedPattern.patternNames child? mixed = .ok ["a", "d", "e"] ∧
      mixedCall.requireOf? child? mixed (some mixedDeclarator) =
        .ok (some ⟨"./x", .commonjs, ["a", "d", "e"]⟩) := by
  obtain ⟨read, -, hread, -, -, hrequire⟩ := patternNames_direct binds_mixedPattern rfl
  have hnames : mixedPattern.patternNames child? mixed = .ok ["a", "d", "e"] := by
    decide +kernel
  have hrefers : Refers mixed mixedCall "./x" := by
    have hvalue : (onLine .string none true 45 50 []).stringValue mixed = "./x" := by
      decide +kernel
    rw [← hvalue]
    exact .requiring rfl rfl rfl (by decide +kernel) rfl rfl rfl
  refine ⟨binds_mixedPattern, rfl, hnames, ?_⟩
  rw [hrequire mixedDeclarator mixedCall "./x" rfl rfl rfl hrefers,
    Except.ok.inj (hread.symm.trans hnames)]

def renamed : Bytes := lineOf "const \x7b a: b = 1 \x7d = require('./x')"

def renamedPattern : Node :=
  onLine .objectPattern (some .name) true 6 18 [
    onLine (.other "\x7b") none false 6 7 [],
    onLine .pairPattern none true 8 16 [
      onLine (.other "property_identifier") (some (.other "key")) true 8 9 [],
      onLine (.other ":") none false 9 10 [],
      onLine (.other "assignment_pattern") (some .value) true 11 16 [
        onLine .identifier (some .left) true 11 12 [],
        onLine .equalsSign none false 13 14 [],
        onLine (.other "number") (some (.other "right")) true 15 16 []]],
    onLine (.other "\x7d") none false 17 18 []]

/-- The name under a key is not found behind a default. -/
theorem defaulted_not_found :
    ¬ ∀ (source : Bytes) (pattern : Node) (names : List String), pattern.kind = .objectPattern →
      Binds source pattern names → pattern.patternNames child? source = .ok names := by
  intro h
  have hbinds : Binds renamed renamedPattern ["b"] := by
    refine (binds_parts_iff (.object rfl (by decide))).2 ⟨[["b"]], .cons ?_ .nil, rfl⟩
    refine .of_one (.pair rfl rfl) (.of_one (.defaulted (.inr rfl) rfl) ?_)
    exact .of_text (.inl rfl) (by decide +kernel)
  have hread : renamedPattern.patternNames child? renamed = .ok [] := by decide +kernel
  exact absurd (hread.symm.trans (h _ _ _ rfl hbinds)) (by decide)

end Node
end ModuleAtlas.Syntax
