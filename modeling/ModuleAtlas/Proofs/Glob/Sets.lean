/-
What a set takes.

# Members

The text of a set lists members (`Lists`): from the front, single characters
and ranges. A set takes what one of them holds, or, turned around by a `!`
in front, what none of them does (`Takes`).

# An exception

A range that runs backwards holds nothing, so it makes no difference whether
it is dropped, with one exception. Where such ranges are all that stands
before a `!`, it comes to the front when they are dropped, and turns the set
around as well (`TurnsLate`). So sets are read by a rule with this exception
(`Reads`), and that is what they accept (`accepts_setOf_iff`).
-/
import Mathlib.Data.List.TakeWhile
import ModuleAtlas.Glob

namespace ModuleAtlas.Glob

-- ================================================================ rules

/-- The members that a text lists: from the front, a hyphen with a character
on either side makes a range of the three, and any other character stands
for itself. -/
inductive Lists : List Char → List Member → Prop
  | nil : Lists [] []
  | range {low high : Char} {rest : List Char} {ms : List Member} (h : Lists rest ms) :
      Lists (low :: '-' :: high :: rest) (.range low high :: ms)
  | one {c : Char} {rest : List Char} {ms : List Member}
      (hone : ∀ b more, rest ≠ '-' :: b :: more) (h : Lists rest ms) :
      Lists (c :: rest) (.one c :: ms)

/-- The set with this text takes the character: a member holds it, or, behind
a `!`, none does. -/
inductive Takes : List Char → Char → Prop
  | among {body : List Char} {ms : List Member} {c : Char} (hplain : body.head? ≠ some '!')
      (hlists : Lists body ms) (hm : ∃ m ∈ ms, m.holds c = true) : Takes body c
  | outside {rest : List Char} {ms : List Member} {c : Char} (hlists : Lists rest ms)
      (hm : ∀ m ∈ ms, m.holds c = false) : Takes ('!' :: rest) c

/-- What is left of a member whose `!` turns the set around. -/
inductive Leftover : Member → List Member → Prop
  | one : Leftover (.one '!') []
  | range {high : Char} : Leftover (.range '!' high) [.one '-', .one high]

/-- All that stands before the first member with something in it are
backward ranges, and that member begins with a `!`. Without the `!`, it and
the members behind it are `left ++ ms`. -/
inductive TurnsLate : List Char → List Member → Prop
  | turn {body : List Char} {backward left ms : List Member} {m : Member}
      (hplain : body.head? ≠ some '!') (hlists : Lists body (backward ++ m :: ms))
      (hne : backward ≠ []) (hbackward : ∀ r ∈ backward, r.isBackward = true)
      (hm : m.isBackward = false) (hleft : Leftover m left) : TurnsLate body (left ++ ms)

/-- The set with this text takes the character, as sets are read. -/
inductive Reads : List Char → Char → Prop
  | usual {body : List Char} {c : Char} (husual : ∀ out, ¬ TurnsLate body out)
      (h : Takes body c) : Reads body c
  | late {body : List Char} {c : Char} {out : List Member} (hlate : TurnsLate body out)
      (hout : ∀ m ∈ out, m.holds c = false) : Reads body c

variable {body rest : List Char} {c : Char} {ms out : List Member} {m : Member}

-- ============================================================== members

/-- The members of a text are those that it lists. -/
theorem lists_iff : Lists body ms ↔ members body = ms := by
  constructor
  · intro h
    induction h with
    | nil => rfl
    | range _ ih => rw [members, ih]
    | @one c rest ms hone _ ih =>
        rw [members.eq_2 c rest fun b more heq => hone b more heq, ih]
  · rintro rfl
    fun_induction members body with
    | case1 a b rest ih => exact .range ih
    | case2 a rest hone ih => exact .one (fun b more heq => hone b more heq) ih
    | case3 => exact .nil

theorem Lists.bang_mem (h : Lists body ms) (hm : m ∈ ms) (hleft : Leftover m out) :
    '!' ∈ body := by
  induction h with
  | nil => cases hm
  | range _ ih =>
      rcases List.mem_cons.1 hm with rfl | hm
      · cases hleft
        exact List.mem_cons_self
      · exact List.mem_cons_of_mem _ (List.mem_cons_of_mem _ (List.mem_cons_of_mem _ (ih hm)))
  | one _ _ ih =>
      rcases List.mem_cons.1 hm with rfl | hm
      · cases hleft
        exact List.mem_cons_self
      · exact List.mem_cons_of_mem _ (ih hm)

/-- A set turns late over a `!` of its text. -/
theorem TurnsLate.bang_mem (h : TurnsLate body out) : '!' ∈ body := by
  cases h with
  | turn _ hlists _ _ _ hleft =>
      exact hlists.bang_mem (List.mem_append_right _ List.mem_cons_self) hleft

theorem holds_of_isBackward (hm : m.isBackward = true) (c : Char) : m.holds c = false := by
  cases m with
  | one a => cases hm
  | range low high =>
      have hhigh : high < low := of_decide_eq_true hm
      simp only [Member.holds, Bool.and_eq_false_iff, decide_eq_false_iff_not]
      by_contra hboth
      rw [not_or, not_not, not_not] at hboth
      exact absurd hhigh (Char.not_lt.2 (Char.le_trans hboth.1 hboth.2))

/-- Whether backward ranges are dropped makes no difference to what is held. -/
theorem exists_holds_filter_iff :
    (∃ m ∈ ms.filter (!·.isBackward), m.holds c = true) ↔ ∃ m ∈ ms, m.holds c = true := by
  constructor
  · rintro ⟨m, hm, hc⟩
    exact ⟨m, (List.mem_filter.1 hm).1, hc⟩
  · rintro ⟨m, hm, hc⟩
    refine ⟨m, List.mem_filter.2 ⟨hm, ?_⟩, hc⟩
    cases hback : m.isBackward with
    | false => rfl
    | true => rw [holds_of_isBackward hback c] at hc; cases hc

theorem accepts_set_false_iff :
    (Piece.set false ms).accepts c = true ↔ ∃ m ∈ ms, m.holds c = true := by
  simp [Piece.accepts]

theorem accepts_set_true_iff :
    (Piece.set true ms).accepts c = true ↔ ∀ m ∈ ms, m.holds c = false := by
  simp [Piece.accepts]

theorem accepts_set_true_filter_iff :
    (Piece.set true (ms.filter (!·.isBackward))).accepts c = true ↔
      ∀ m ∈ ms, m.holds c = false := by
  have h : (¬ ∃ m ∈ ms.filter (!·.isBackward), m.holds c = true) ↔ ¬ ∃ m ∈ ms, m.holds c = true :=
    not_congr exists_holds_filter_iff
  rw [accepts_set_true_iff]
  simpa using h

-- =========================================================== late turns

theorem turnLate_of_leftover {left : List Member} (h : Leftover m left) (ms : List Member) :
    turnLate (m :: ms) = .set true (left ++ ms) := by
  cases h <;> rfl

theorem turnLate_of_not_leftover (h : ∀ left, ¬ Leftover m left) (ms : List Member) :
    turnLate (m :: ms) = .set false (m :: ms) := by
  unfold turnLate
  split
  · next heq =>
    obtain ⟨rfl, -⟩ := List.cons.inj heq
    exact absurd .one (h _)
  · next heq =>
    obtain ⟨rfl, -⟩ := List.cons.inj heq
    exact absurd .range (h _)
  · rfl

theorem setOf_ne_run (body : List Char) : setOf body ≠ .run := by
  have hturn : ∀ ms, turnLate ms ≠ .run := by
    intro ms
    unfold turnLate
    split <;> nofun
  unfold setOf
  split
  · nofun
  · dsimp only
    split
    · nofun
    · exact hturn _

section Backward

variable {backward backward' ms' : List Member} {m' : Member}

/-- There is one first member with something in it. -/
theorem backward_unique (heq : backward ++ m :: ms = backward' ++ m' :: ms')
    (hbackward : ∀ r ∈ backward, r.isBackward = true) (hm : m.isBackward = false)
    (hbackward' : ∀ r ∈ backward', r.isBackward = true) (hm' : m'.isBackward = false) :
    backward = backward' ∧ m = m' ∧ ms = ms' := by
  have hnot : ¬ m.isBackward = true := by rw [hm]; exact Bool.false_ne_true
  have hnot' : ¬ m'.isBackward = true := by rw [hm']; exact Bool.false_ne_true
  have hfront := congrArg (List.takeWhile Member.isBackward) heq
  have hbehind := congrArg (List.dropWhile Member.isBackward) heq
  rw [List.takeWhile_append_of_pos hbackward, List.takeWhile_append_of_pos hbackward',
    List.takeWhile_cons_of_neg hnot, List.takeWhile_cons_of_neg hnot', List.append_nil,
    List.append_nil] at hfront
  rw [List.dropWhile_append_of_pos hbackward, List.dropWhile_append_of_pos hbackward',
    List.dropWhile_cons_of_neg hnot, List.dropWhile_cons_of_neg hnot'] at hbehind
  exact ⟨hfront, List.cons.inj hbehind⟩

variable (hplain : body.head? ≠ some '!') (hall : members body = backward ++ m :: ms)
    (hbackward : ∀ r ∈ backward, r.isBackward = true) (hm : m.isBackward = false)

include hplain hall hbackward hm

/-- With its members at hand, it is seen whether a set turns late. -/
theorem turnsLate_iff :
    TurnsLate body out ↔ backward ≠ [] ∧ ∃ left, Leftover m left ∧ out = left ++ ms := by
  constructor
  · intro h
    obtain ⟨hplain', hlists, hne, hbackward', hm', hleft⟩ := h
    have heq := (lists_iff.1 hlists).symm.trans hall
    obtain ⟨rfl, rfl, rfl⟩ := backward_unique heq hbackward' hm' hbackward hm
    exact ⟨hne, _, hleft, rfl⟩
  · rintro ⟨hne, left, hleft, rfl⟩
    exact .turn hplain (lists_iff.2 hall) hne hbackward hm hleft

theorem setOf_eq :
    setOf body = if backward = [] then .set false (m :: ms.filter (!·.isBackward))
      else turnLate (m :: ms.filter (!·.isBackward)) := by
  have hkept : (members body).filter (!·.isBackward) = m :: ms.filter (!·.isBackward) := by
    have hdropped : backward.filter (!·.isBackward) = [] :=
      List.filter_eq_nil_iff.2 fun r hr => by simp [hbackward r hr]
    rw [hall, List.filter_append, hdropped, List.nil_append,
      List.filter_cons_of_pos (by simp [hm])]
  unfold setOf
  split
  · exact absurd rfl hplain
  · dsimp only
    rw [hkept, hall]
    cases backward with
    | nil => exact (if_pos rfl).trans (if_pos rfl).symm
    | cons r backward =>
        rw [if_neg (List.cons_ne_nil r backward), if_neg]
        intro heq
        obtain rfl : r = m := Option.some.inj heq
        rw [hbackward r (List.mem_cons_self ..)] at hm
        cases hm

end Backward

theorem Leftover.unique {left left' : List Member} (h : Leftover m left)
    (h' : Leftover m left') : left = left' := by
  cases h <;> cases h' <;> rfl

theorem Leftover.filter_append {left : List Member} (h : Leftover m left) (ms : List Member) :
    left ++ ms.filter (!·.isBackward) = (left ++ ms).filter (!·.isBackward) := by
  cases h <;> rfl

theorem takes_plain_iff (hplain : body.head? ≠ some '!') :
    Takes body c ↔ ∃ m ∈ members body, m.holds c = true := by
  constructor
  · intro h
    cases h with
    | among _ hlists hm => rwa [lists_iff.1 hlists]
    | outside => exact absurd rfl hplain
  · exact .among hplain (lists_iff.2 rfl)

/-- Behind no `!`, and without one that turns it late, a set takes what its
members hold. -/
theorem reads_usual_iff (hplain : body.head? ≠ some '!') (husual : ∀ out, ¬ TurnsLate body out) :
    Reads body c ↔ ∃ m ∈ members body, m.holds c = true := by
  rw [← takes_plain_iff hplain]
  constructor
  · intro h
    cases h with
    | usual _ htakes => exact htakes
    | late hlate => exact absurd hlate (husual _)
  · exact .usual husual

/-- A set that turns late takes what the members behind hold not. -/
theorem reads_late_iff (hlate : TurnsLate body out) :
    Reads body c ↔ ∀ m ∈ out, m.holds c = false := by
  constructor
  · intro h
    cases h with
    | usual husual => exact absurd hlate (husual _)
    | late hlate' hout =>
        obtain ⟨hplain, hlists, -, hbackward, hm, hleft⟩ := hlate
        have hall := lists_iff.1 hlists
        obtain ⟨-, left, hleft', rfl⟩ := (turnsLate_iff hplain hall hbackward hm).1 hlate'
        rwa [hleft.unique hleft']
  · exact .late hlate

-- ==================================================== what is accepted

/-- A set that a `!` in front turns around takes what its members hold not. -/
theorem accepts_setOf_turned_iff :
    (setOf ('!' :: rest)).accepts c = true ↔ Reads ('!' :: rest) c := by
  have hnever : ∀ out, ¬ TurnsLate ('!' :: rest) out := by
    rintro _ ⟨hplain, -⟩
    exact hplain rfl
  have hset : setOf ('!' :: rest) = .set true ((members rest).filter (!·.isBackward)) := rfl
  rw [hset, accepts_set_true_filter_iff]
  constructor
  · intro h
    exact .usual hnever (.outside (lists_iff.2 rfl) h)
  · intro h
    cases h with
    | usual _ htakes =>
        cases htakes with
        | among hplain => exact absurd rfl hplain
        | outside hlists hm => rwa [lists_iff.1 hlists]
    | late hlate => exact absurd hlate (hnever _)

/-- A set that holds backward ranges only takes nothing. -/
theorem accepts_setOf_of_backward (hplain : body.head? ≠ some '!')
    (hkept : (members body).filter (!·.isBackward) = []) :
    (setOf body).accepts c = true ↔ Reads body c := by
  have husual : ∀ out, ¬ TurnsLate body out := by
    rintro _ ⟨-, hlists, -, -, hm, -⟩
    rw [lists_iff.1 hlists, List.filter_append, List.append_eq_nil_iff,
      List.filter_cons_of_pos (by rw [hm]; rfl)] at hkept
    exact absurd hkept.2 (List.cons_ne_nil _ _)
  have hset : setOf body = .set false ((members body).filter (!·.isBackward)) := by
    unfold setOf
    split
    · exact absurd rfl hplain
    · dsimp only
      rw [hkept]
      split <;> rfl
  rw [hset, accepts_set_false_iff, exists_holds_filter_iff, reads_usual_iff hplain husual]

/-- The set with this text accepts what it takes, as sets are read. -/
theorem accepts_setOf_iff : (setOf body).accepts c = true ↔ Reads body c := by
  by_cases hplain : body.head? = some '!'
  · obtain ⟨rest, rfl⟩ := List.head?_eq_some_iff.1 hplain
    exact accepts_setOf_turned_iff
  · cases hkept : (members body).filter (!·.isBackward) with
    | nil => exact accepts_setOf_of_backward hplain hkept
    | cons m kept =>
        -- the first member with something in it decides
        obtain ⟨backward, ms, hall, hbackward, hm, hrest⟩ := List.filter_eq_cons_iff.1 hkept
        have hbackward : ∀ r ∈ backward, r.isBackward = true := by simpa using hbackward
        have hm : m.isBackward = false := by simpa using hm
        have hlate : ∀ out, TurnsLate body out ↔
            backward ≠ [] ∧ ∃ left, Leftover m left ∧ out = left ++ ms :=
          fun _ => turnsLate_iff hplain hall hbackward hm
        rw [setOf_eq hplain hall hbackward hm, hrest]
        by_cases hturn : backward ≠ [] ∧ ∃ left, Leftover m left
        · obtain ⟨hne, left, hleft⟩ := hturn
          rw [if_neg hne, turnLate_of_leftover hleft, ← hrest, hleft.filter_append,
            accepts_set_true_filter_iff]
          exact (reads_late_iff ((hlate _).2 ⟨hne, left, hleft, rfl⟩)).symm
        · have husual : ∀ out, ¬ TurnsLate body out := fun out h => by
            obtain ⟨hne, left, hleft, -⟩ := (hlate out).1 h
            exact hturn ⟨hne, left, hleft⟩
          have hset : (if backward = [] then Piece.set false (m :: kept)
              else turnLate (m :: kept)) = .set false (m :: kept) := by
            split
            · rfl
            · next hne =>
              exact turnLate_of_not_leftover (fun left hleft => hturn ⟨hne, left, hleft⟩) kept
          rw [hset, accepts_set_false_iff, ← hkept, exists_holds_filter_iff,
            reads_usual_iff hplain husual]

end ModuleAtlas.Glob
