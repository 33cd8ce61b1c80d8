/-
What a pattern matches.

# The rules

A pattern matches a name as a whole and from the front (`Matches`). A star
takes any run of characters and a question mark any one. A set takes one
character by the rule for what stands between its brackets. A `[` that
nothing closes takes itself, as every other character does.

# Two steps

Matching a name with the pieces of a pattern is a search for the run of each
star (`headD_matchesFrom_iff`), and the pieces stand for what the text of
the pattern does (`fits_piecesUpTo_iff`). So patterns match by the rules,
if sets are read with their exception (`anyAccepts_iff`). Without it, the
rules are not those of a pattern with a set that turns late
(`late_turn_not_taken`).
-/
import Mathlib.Data.List.Infix
import ModuleAtlas.Proofs.Glob.Sets

namespace ModuleAtlas.Glob

-- ================================================================ rules

/-- What a set lists: its text behind a `!` in front. -/
def listed : List Char → List Char
  | '!' :: rest => rest
  | body => body

/-- A text that can stand between brackets: it lists something, and no `]`
behind the first thing listed. -/
def IsBody (body : List Char) : Prop :=
  ∃ c rest, listed body = c :: rest ∧ ']' ∉ rest

/-- A pattern matches a name, if `takes` tells which characters the set with
a given text takes. -/
inductive Matches (takes : List Char → Char → Prop) : List Char → List Char → Prop
  | nil : Matches takes [] []
  | run {pattern name : List Char} (front : List Char) (h : Matches takes pattern name) :
      Matches takes ('*' :: pattern) (front ++ name)
  | any {pattern name : List Char} {c : Char} (h : Matches takes pattern name) :
      Matches takes ('?' :: pattern) (c :: name)
  | set {body pattern name : List Char} {c : Char} (hbody : IsBody body) (hc : takes body c)
      (h : Matches takes pattern name) :
      Matches takes ('[' :: (body ++ ']' :: pattern)) (c :: name)
  | unclosed {pattern name : List Char}
      (hopen : ∀ body after, IsBody body → pattern ≠ body ++ ']' :: after)
      (h : Matches takes pattern name) : Matches takes ('[' :: pattern) ('[' :: name)
  | char {pattern name : List Char} {c : Char} (hstar : c ≠ '*') (hmark : c ≠ '?')
      (hset : c ≠ '[') (h : Matches takes pattern name) : Matches takes (c :: pattern) (c :: name)

variable {body rest after pattern name : List Char} {c : Char} {p : Piece}
    {ps : List Piece} {takes takes' : List Char → Char → Prop}

/-- What matches depends on the sets of the pattern only. -/
theorem Matches.congr (h : Matches takes pattern name)
    (hsets : ∀ body, '[' :: (body ++ [']']) <:+: pattern → ∀ c, takes body c → takes' body c) :
    Matches takes' pattern name := by
  induction h with
  | nil => exact .nil
  | run front _ ih => exact .run front (ih fun body hb => hsets body (List.infix_cons hb))
  | any _ ih => exact .any (ih fun body hb => hsets body (List.infix_cons hb))
  | @set body pattern _ c hbody hc _ ih =>
      have hhere : '[' :: (body ++ [']']) <:+: '[' :: (body ++ ']' :: pattern) :=
        ⟨[], pattern, by simp⟩
      have hbehind : pattern <:+: '[' :: (body ++ ']' :: pattern) :=
        ⟨'[' :: (body ++ [']']), [], by simp⟩
      exact .set hbody (hsets body hhere c hc) (ih fun body' hb => hsets body' (hb.trans hbehind))
  | unclosed hopen _ ih => exact .unclosed hopen (ih fun body hb => hsets body (List.infix_cons hb))
  | char hstar hmark hset _ ih =>
      exact .char hstar hmark hset (ih fun body hb => hsets body (List.infix_cons hb))

-- ====================================================== pieces and names

/-- The pieces match the name: a run takes any characters, and every other
piece one that it accepts. -/
inductive Fits : List Piece → List Char → Prop
  | nil : Fits [] []
  | run {ps : List Piece} {name : List Char} (front : List Char) (h : Fits ps name) :
      Fits (.run :: ps) (front ++ name)
  | one {p : Piece} {ps : List Piece} {c : Char} {name : List Char} (hp : p.accepts c = true)
      (h : Fits ps name) : Fits (p :: ps) (c :: name)

theorem fits_nil_iff : Fits [] name ↔ name = [] := by
  constructor
  · intro h
    cases h
    rfl
  · rintro rfl
    exact .nil

theorem fits_run_iff :
    Fits (.run :: ps) name ↔ ∃ front rest, name = front ++ rest ∧ Fits ps rest := by
  constructor
  · intro h
    cases h with
    | run front h => exact ⟨front, _, rfl, h⟩
    | one hp => cases hp
  · rintro ⟨front, rest, rfl, h⟩
    exact .run front h

theorem fits_one_iff (hp : p ≠ .run) :
    Fits (p :: ps) name ↔ ∃ c rest, name = c :: rest ∧ p.accepts c = true ∧ Fits ps rest := by
  constructor
  · intro h
    cases h with
    | run => exact absurd rfl hp
    | one hc h => exact ⟨_, _, rfl, hc, h⟩
  · rintro ⟨c, rest, rfl, hc, h⟩
    exact .one hc h

-- ====================================================== rows of answers

theorem matchesFrom_of_ne_run (hp : p ≠ .run) (ps : List Piece) (name : List Char) :
    matchesFrom (p :: ps) name =
      List.zipWith (fun c later => p.accepts c && later) name (matchesFrom ps name).tail ++
        [false] := by
  cases p with
  | run => exact absurd rfl hp
  | any => rfl
  | char d => rfl
  | set turned members => rfl

/-- The row for the end of a name has one answer. -/
theorem exists_matchesFrom_nil (ps : List Piece) : ∃ b, matchesFrom ps [] = [b] := by
  induction ps with
  | nil => exact ⟨true, rfl⟩
  | cons p ps ih =>
      obtain ⟨b, hb⟩ := ih
      by_cases hp : p = .run
      · subst hp
        exact ⟨_, by rw [matchesFrom, hb, orLater]; rfl⟩
      · exact ⟨false, matchesFrom_of_ne_run hp ps []⟩

/-- In the row for a name, the answer for the whole comes before the row for
what is behind its first character. -/
theorem exists_matchesFrom_cons (ps : List Piece) (c : Char) (name : List Char) :
    ∃ b, matchesFrom ps (c :: name) = b :: matchesFrom ps name := by
  induction ps generalizing c name with
  | nil => exact ⟨false, rfl⟩
  | cons p ps ih =>
      obtain ⟨b, hb⟩ := ih c name
      by_cases hp : p = .run
      · subst hp
        exact ⟨_, by rw [matchesFrom, hb, orLater]; rfl⟩
      · rw [matchesFrom_of_ne_run hp, matchesFrom_of_ne_run hp, hb, List.tail_cons]
        cases name with
        | nil =>
            obtain ⟨b', hb'⟩ := exists_matchesFrom_nil ps
            rw [hb']
            exact ⟨_, rfl⟩
        | cons d name =>
            obtain ⟨b', hb'⟩ := ih d name
            rw [hb']
            exact ⟨_, rfl⟩

theorem matchesFrom_ne_nil (ps : List Piece) (name : List Char) : matchesFrom ps name ≠ [] := by
  cases name with
  | nil =>
      obtain ⟨b, hb⟩ := exists_matchesFrom_nil ps
      rw [hb]
      exact List.cons_ne_nil b []
  | cons c name =>
      obtain ⟨b, hb⟩ := exists_matchesFrom_cons ps c name
      rw [hb]
      exact List.cons_ne_nil b _

/-- The first answer of a row is that for the whole name. -/
theorem headD_matchesFrom_iff (ps : List Piece) (name : List Char) :
    (matchesFrom ps name).headD false = true ↔ Fits ps name := by
  induction ps generalizing name with
  | nil =>
      rw [fits_nil_iff]
      cases name <;> simp [matchesFrom]
  | cons p ps ih =>
      by_cases hp : p = .run
      · subst hp
        rw [fits_run_iff]
        induction name with
        | nil =>
            obtain ⟨b, hb⟩ := exists_matchesFrom_nil ps
            have hend := ih []
            rw [hb] at hend
            rw [matchesFrom, hb]
            simpa [orLater] using hend
        | cons c name ihname =>
            obtain ⟨b, hb⟩ := exists_matchesFrom_cons ps c name
            have hwhole := ih (c :: name)
            rw [hb, List.headD_cons] at hwhole
            rw [matchesFrom] at ihname
            rw [matchesFrom, hb, orLater, List.headD_cons, Bool.or_eq_true, hwhole, ihname]
            constructor
            · rintro (h | ⟨front, rest, rfl, h⟩)
              · exact ⟨[], c :: name, rfl, h⟩
              · exact ⟨c :: front, rest, rfl, h⟩
            · rintro ⟨front, rest, heq, h⟩
              cases front with
              | nil =>
                  obtain rfl : c :: name = rest := heq
                  exact .inl h
              | cons d front => exact .inr ⟨front, rest, (List.cons.inj heq).2, h⟩
      · rw [fits_one_iff hp, matchesFrom_of_ne_run hp]
        cases name with
        | nil => simp
        | cons c name =>
            obtain ⟨b, hb⟩ := exists_matchesFrom_cons ps c name
            obtain ⟨b', row, hrow⟩ := List.exists_cons_of_ne_nil (matchesFrom_ne_nil ps name)
            have hrest := ih name
            rw [hrow, List.headD_cons] at hrest
            rw [hb, List.tail_cons, hrow, List.zipWith_cons_cons, List.cons_append,
              List.headD_cons, Bool.and_eq_true, hrest]
            constructor
            · rintro ⟨hc, h⟩
              exact ⟨c, name, rfl, hc, h⟩
            · rintro ⟨d, rest, heq, hd, h⟩
              obtain ⟨rfl, rfl⟩ := List.cons.inj heq
              exact ⟨hd, h⟩

-- ===================================================== the text of a set

theorem listed_of_ne (hc : c ≠ '!') (rest : List Char) : listed (c :: rest) = c :: rest := by
  unfold listed
  split
  · next heq => exact absurd (List.cons.inj heq).1 hc
  · rfl

/-- What lists something does so with or without a `!` in front. -/
theorem listed_eq_cons_iff :
    listed body = c :: rest ↔ body = '!' :: c :: rest ∨ c ≠ '!' ∧ body = c :: rest := by
  constructor
  · intro h
    unfold listed at h
    split at h
    · exact .inl (congrArg _ h)
    · next hplain =>
      refine .inr ⟨?_, h⟩
      rintro rfl
      exact hplain rest h
  · rintro (rfl | ⟨hc, rfl⟩)
    · rfl
    · exact listed_of_ne hc rest

/-- The text of a set ends before the first `]` that it can end at. -/
theorem setText?_eq_some_iff {s : List Char} :
    setText? s = some (body, after) ↔ s = body ++ ']' :: after ∧ IsBody body := by
  constructor
  · intro h
    unfold setText? at h
    split at h
    next front rest hfront =>
    cases hfirst : Text.aroundFirst ']' rest with
    | none => rw [hfirst] at h; cases h
    | some around =>
        obtain ⟨inner, behind⟩ := around
        rw [hfirst] at h
        obtain ⟨rfl, rfl⟩ := Prod.mk.inj (Option.some.inj h)
        obtain ⟨rfl, hinner⟩ := Text.aroundFirst_eq_some_iff.1 hfirst
        split at hfront
        · obtain ⟨rfl, rfl⟩ := Prod.mk.inj hfront
          exact ⟨rfl, ']', inner, rfl, hinner⟩
        · next hnot =>
          obtain ⟨rfl, rfl⟩ := Prod.mk.inj hfront
          cases inner with
          | nil => exact absurd rfl (hnot behind)
          | cons d more => exact ⟨rfl, d, more, rfl, List.not_mem_of_not_mem_cons hinner⟩
        · obtain ⟨rfl, rfl⟩ := Prod.mk.inj hfront
          exact ⟨rfl, ']', inner, rfl, hinner⟩
        · next hmark hclosed =>
          obtain ⟨rfl, rfl⟩ := Prod.mk.inj hfront
          cases inner with
          | nil => exact absurd rfl (hclosed behind)
          | cons d more =>
              refine ⟨rfl, d, more, listed_of_ne ?_ more, List.not_mem_of_not_mem_cons hinner⟩
              rintro rfl
              exact hmark _ rfl
  · rintro ⟨rfl, d, more, hlisted, hmore⟩
    have hfirst : ∀ inner, ']' ∉ inner →
        Text.aroundFirst ']' (inner ++ ']' :: after) = some (inner, after) :=
      fun inner hinner => Text.aroundFirst_eq_some_iff.2 ⟨rfl, hinner⟩
    have hlisted := listed_eq_cons_iff.1 hlisted
    by_cases hd : d = ']'
    · subst hd
      rcases hlisted with rfl | ⟨-, rfl⟩
      · simp [setText?, hfirst more hmore]
      · simp [setText?, hfirst more hmore]
    · have hall : ']' ∉ d :: more := List.not_mem_cons_of_ne_of_not_mem (Ne.symm hd) hmore
      have hall := hfirst (d :: more) hall
      rw [List.cons_append] at hall
      rcases hlisted with rfl | ⟨hmark, rfl⟩
      · simp [setText?, hall, hd]
      · simp [setText?, hall, hd, hmark]

-- ===================================================== the whole pattern

theorem matches_nil_iff : Matches takes [] name ↔ name = [] := by
  constructor
  · intro h
    cases h
    rfl
  · rintro rfl
    exact .nil

theorem matches_star_iff :
    Matches takes ('*' :: pattern) name ↔
      ∃ front rest, name = front ++ rest ∧ Matches takes pattern rest := by
  constructor
  · intro h
    cases h with
    | run front h => exact ⟨front, _, rfl, h⟩
    | char hstar => exact absurd rfl hstar
  · rintro ⟨front, rest, rfl, h⟩
    exact .run front h

theorem matches_mark_iff :
    Matches takes ('?' :: pattern) name ↔
      ∃ c rest, name = c :: rest ∧ Matches takes pattern rest := by
  constructor
  · intro h
    cases h with
    | any h => exact ⟨_, _, rfl, h⟩
    | char _ hmark => exact absurd rfl hmark
  · rintro ⟨c, rest, rfl, h⟩
    exact .any h

/-- Where a set is closed, it takes the first character. -/
theorem matches_set_iff (hset : setText? pattern = some (body, after)) :
    Matches takes ('[' :: pattern) name ↔
      ∃ c rest, name = c :: rest ∧ takes body c ∧ Matches takes after rest := by
  obtain ⟨rfl, hbody⟩ := setText?_eq_some_iff.1 hset
  constructor
  · intro h
    generalize hpattern : '[' :: (body ++ ']' :: after) = whole at h
    cases h with
    | nil => cases hpattern
    | run => cases (List.cons.inj hpattern).1
    | any => cases (List.cons.inj hpattern).1
    | @set body' after' rest c hbody' hc h =>
        have hset' := setText?_eq_some_iff.2 ⟨(List.cons.inj hpattern).2, hbody'⟩
        rw [hset] at hset'
        obtain ⟨rfl, rfl⟩ := Prod.mk.inj (Option.some.inj hset')
        exact ⟨c, rest, rfl, hc, h⟩
    | unclosed hopen => exact absurd (List.cons.inj hpattern).2.symm (hopen body after hbody)
    | char _ _ hplain => exact absurd (List.cons.inj hpattern).1.symm hplain
  · rintro ⟨c, rest, rfl, hc, h⟩
    exact .set hbody hc h

/-- Where it is not, the bracket takes itself. -/
theorem matches_bracket_iff (hset : setText? pattern = none) :
    Matches takes ('[' :: pattern) name ↔
      ∃ c rest, name = c :: rest ∧ '[' = c ∧ Matches takes pattern rest := by
  have hopen : ∀ body after, IsBody body → pattern ≠ body ++ ']' :: after := by
    intro body after hbody heq
    rw [setText?_eq_some_iff.2 ⟨heq, hbody⟩] at hset
    cases hset
  constructor
  · intro h
    generalize hpattern : '[' :: pattern = whole at h
    cases h with
    | nil => cases hpattern
    | run => cases (List.cons.inj hpattern).1
    | any => cases (List.cons.inj hpattern).1
    | set hbody => exact absurd (List.cons.inj hpattern).2 (hopen _ _ hbody)
    | unclosed _ h =>
        obtain rfl := (List.cons.inj hpattern).2
        exact ⟨'[', _, rfl, rfl, h⟩
    | char _ _ hplain => exact absurd (List.cons.inj hpattern).1.symm hplain
  · rintro ⟨c, rest, rfl, rfl, h⟩
    exact .unclosed hopen h

theorem matches_char_iff (hstar : c ≠ '*') (hmark : c ≠ '?') (hset : c ≠ '[') :
    Matches takes (c :: pattern) name ↔
      ∃ d rest, name = d :: rest ∧ c = d ∧ Matches takes pattern rest := by
  constructor
  · intro h
    cases h with
    | run => exact absurd rfl hstar
    | any => exact absurd rfl hmark
    | set => exact absurd rfl hset
    | unclosed => exact absurd rfl hset
    | char _ _ _ h => exact ⟨c, _, rfl, rfl, h⟩
  · rintro ⟨d, rest, rfl, rfl, h⟩
    exact .char hstar hmark hset h

/-- A pattern matches what its pieces do. -/
theorem fits_piecesUpTo_iff {fuel : Nat} (hfuel : pattern.length ≤ fuel) (name : List Char) :
    Fits (piecesUpTo fuel pattern) name ↔ Matches Reads pattern name := by
  fun_induction piecesUpTo fuel pattern generalizing name with
  | case1 pattern =>
      obtain rfl := List.eq_nil_of_length_eq_zero (Nat.le_zero.1 hfuel)
      rw [fits_nil_iff, matches_nil_iff]
  | case2 => rw [fits_nil_iff, matches_nil_iff]
  | case3 fuel rest ih =>
      have hrest : rest.length ≤ fuel := Nat.le_of_succ_le_succ hfuel
      simp only [fits_run_iff, matches_star_iff, ih hrest]
  | case4 fuel rest ih =>
      have hrest : rest.length ≤ fuel := Nat.le_of_succ_le_succ hfuel
      simp only [fits_one_iff (p := .any) (by decide), matches_mark_iff, ih hrest, Piece.accepts,
        true_and]
  | case5 fuel rest body after hset ih =>
      have hafter : after.length ≤ fuel := by
        obtain ⟨rfl, -⟩ := setText?_eq_some_iff.1 hset
        simp only [List.length_cons, List.length_append] at hfuel
        omega
      simp only [fits_one_iff (setOf_ne_run body), matches_set_iff hset, ih hafter,
        accepts_setOf_iff]
  | case6 fuel rest hset ih =>
      have hrest : rest.length ≤ fuel := Nat.le_of_succ_le_succ hfuel
      simp only [fits_one_iff (p := .char '[') (by decide), matches_bracket_iff hset, ih hrest,
        Piece.accepts, beq_iff_eq]
  | case7 fuel c rest hstar hmark hset ih =>
      have hrest : rest.length ≤ fuel := Nat.le_of_succ_le_succ hfuel
      simp only [fits_one_iff (p := .char c) (by simp), matches_char_iff hstar hmark hset, ih hrest,
        Piece.accepts, beq_iff_eq]

/-- A pattern is accepted exactly where it matches, as sets are read. -/
theorem accepts_iff (pattern name : String) :
    accepts pattern name = true ↔ Matches Reads pattern.toList name.toList := by
  unfold accepts pieces
  rw [headD_matchesFrom_iff, fits_piecesUpTo_iff (Nat.le_refl _)]

/-- A name is accepted exactly if one of the patterns matches the whole of it,
sets being read with their exception. Where no pattern has a set that turns
late, this is the rule without it. -/
theorem anyAccepts_iff (patterns : List String) (name : String) :
    (anyAccepts patterns name = true ↔
      ∃ pattern ∈ patterns, Matches Reads pattern.toList name.toList) ∧
    ((∀ pattern ∈ patterns, ∀ body out,
        '[' :: (body ++ [']']) <:+: pattern.toList → ¬ TurnsLate body out) →
      (anyAccepts patterns name = true ↔
        ∃ pattern ∈ patterns, Matches Takes pattern.toList name.toList)) := by
  have hread : anyAccepts patterns name = true ↔
      ∃ pattern ∈ patterns, Matches Reads pattern.toList name.toList := by
    unfold anyAccepts
    simp only [List.any_eq_true, accepts_iff]
  refine ⟨hread, fun hnever => hread.trans (exists_congr fun pattern => ?_)⟩
  refine and_congr_right fun hp => ?_
  constructor
  · intro h
    refine h.congr fun body hbody c hc => ?_
    cases hc with
    | usual _ htakes => exact htakes
    | late hlate => exact absurd hlate (hnever pattern hp body _ hbody)
  · intro h
    exact h.congr fun body hbody c hc => .usual (fun out => hnever pattern hp body out hbody) hc

/-- A digit and what follows it are taken, and no set turns late without a
`!`. -/
theorem anyAccepts_iff_builds :
    (∀ pattern ∈ ["node_modules", "build[0-9]*"], ∀ body out,
        '[' :: (body ++ [']']) <:+: pattern.toList → ¬ TurnsLate body out) ∧
      anyAccepts ["node_modules", "build[0-9]*"] "build7.old" = true ∧
      ∃ pattern ∈ ["node_modules", "build[0-9]*"],
        Matches Takes pattern.toList "build7.old".toList := by
  have hnone : ∀ pattern ∈ ["node_modules", "build[0-9]*"], '!' ∉ pattern.toList := by decide
  have hnever : ∀ pattern ∈ ["node_modules", "build[0-9]*"], ∀ body out,
      '[' :: (body ++ [']']) <:+: pattern.toList → ¬ TurnsLate body out := by
    intro pattern hp body out hset hlate
    have hbang : '!' ∈ '[' :: (body ++ [']']) :=
      List.mem_cons_of_mem _ (List.mem_append_left _ hlate.bang_mem)
    exact hnone pattern hp (hset.subset hbang)
  have haccepted : anyAccepts ["node_modules", "build[0-9]*"] "build7.old" = true := by decide
  exact ⟨hnever, haccepted, ((anyAccepts_iff _ _).2 hnever).1 haccepted⟩

/-- The rule without the exception is not that of a set that turns late: all
that is listed is a `!`, and another character is accepted. -/
theorem late_turn_not_taken :
    ¬ ∀ (patterns : List String) (name : String), anyAccepts patterns name = true ↔
      ∃ pattern ∈ patterns, Matches Takes pattern.toList name.toList := by
  intro h
  have haccepted : anyAccepts ["[b-a!]"] "x" = true := by decide
  obtain ⟨pattern, hmem, hmatch⟩ := (h ["[b-a!]"] "x").1 haccepted
  obtain rfl := List.mem_singleton.1 hmem
  have hset : setText? "b-a!]".toList = some ("b-a!".toList, []) := by decide
  obtain ⟨c, rest, hname, htakes, -⟩ := (matches_set_iff hset).1 hmatch
  obtain ⟨rfl, -⟩ := List.cons.inj hname
  exact absurd ((takes_plain_iff (by decide)).1 htakes) (by decide)

end ModuleAtlas.Glob
