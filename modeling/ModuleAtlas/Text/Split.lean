/-
Cutting a text at a separator and putting the pieces together again.

`split` never loses a character: joining its pieces with the separator
gives the text back (`join_split`), so a path or a list of lines can be
taken apart, worked on piece by piece and written again. `aroundLast`
is the other cut that file names need: around the last occurrence of a
character.
-/

namespace ModuleAtlas.Text

-- ================================================== cutting everywhere

/-- The pieces of a text between the occurrences of `sep`. There is
always at least one piece, possibly empty. -/
def split (sep : Char) : List Char → List (List Char)
  | [] => [[]]
  | c :: cs =>
    if c = sep then [] :: split sep cs
    else
      match split sep cs with
      | [] => [[c]]
      | piece :: pieces => (c :: piece) :: pieces

/-- The pieces in a row, with `sep` between each two. -/
def join (sep : Char) : List (List Char) → List Char
  | [] => []
  | [piece] => piece
  | piece :: pieces => piece ++ sep :: join sep pieces

theorem split_ne_nil (sep : Char) (s : List Char) : split sep s ≠ [] := by
  cases s with
  | nil => simp [split]
  | cons c cs =>
    rw [split]
    split
    · simp
    · split <;> simp

/-- A text without the separator is one piece. -/
theorem split_of_notMem {sep : Char} {s : List Char} (h : sep ∉ s) :
    split sep s = [s] := by
  induction s with
  | nil => rfl
  | cons c cs ih =>
    rw [List.mem_cons, not_or] at h
    rw [split, if_neg fun hc => h.1 hc.symm, ih h.2]

/-- A separator ends the pieces before it. -/
theorem split_append_cons (sep : Char) (s t : List Char) :
    split sep (s ++ sep :: t) = split sep s ++ split sep t := by
  induction s with
  | nil => simp [split]
  | cons c cs ih =>
    rw [List.cons_append, split, split, ih]
    by_cases h : c = sep
    · rw [if_pos h, if_pos h, List.cons_append]
    · rw [if_neg h, if_neg h]
      cases hs : split sep cs with
      | nil => exact absurd hs (split_ne_nil sep cs)
      | cons p ps => rfl

/-- Nothing is lost by a split. -/
theorem join_split (sep : Char) (s : List Char) : join sep (split sep s) = s := by
  induction s with
  | nil => rfl
  | cons c cs ih =>
    cases hs : split sep cs with
    | nil => exact absurd hs (split_ne_nil sep cs)
    | cons p ps =>
      rw [hs] at ih
      by_cases h : c = sep
      · rw [split, if_pos h, hs, join, ih, h]
        · rfl
        · exact List.cons_ne_nil p ps
      · rw [split, if_neg h, hs]
        cases ps with
        | nil => simpa [join] using ih
        | cons q qs => simpa [join] using ih

/-- No piece holds the separator. -/
theorem notMem_of_mem_split {sep : Char} {s piece : List Char} (h : piece ∈ split sep s) :
    sep ∉ piece := by
  induction s generalizing piece with
  | nil =>
    rw [split, List.mem_singleton] at h
    simp [h]
  | cons c cs ih =>
    rw [split] at h
    split at h
    · rcases List.mem_cons.1 h with rfl | h
      · simp
      · exact ih h
    · next hc =>
      cases hs : split sep cs with
      | nil => exact absurd hs (split_ne_nil sep cs)
      | cons p ps =>
        rw [hs] at h ih
        rcases List.mem_cons.1 h with rfl | h
        · rw [List.mem_cons, not_or]
          exact ⟨fun he => hc he.symm, ih (List.mem_cons_self ..)⟩
        · exact ih (List.mem_cons_of_mem _ h)

/-- What was joined is split into the same pieces. -/
theorem split_join {sep : Char} {pieces : List (List Char)} (hne : pieces ≠ [])
    (h : ∀ piece ∈ pieces, sep ∉ piece) : split sep (join sep pieces) = pieces := by
  induction pieces with
  | nil => exact absurd rfl hne
  | cons p ps ih =>
    rw [List.forall_mem_cons] at h
    cases ps with
    | nil => exact split_of_notMem h.1
    | cons q qs =>
      rw [join, split_append_cons, split_of_notMem h.1, ih (List.cons_ne_nil q qs) h.2]
      · rfl
      · exact List.cons_ne_nil q qs

/-- With a separator in front, every piece stands behind one. -/
theorem cons_join {sep : Char} {pieces : List (List Char)} (hne : pieces ≠ []) :
    sep :: join sep pieces = pieces.flatMap (sep :: ·) := by
  induction pieces with
  | nil => exact absurd rfl hne
  | cons p ps ih =>
    cases ps with
    | nil => simp [join]
    | cons q qs =>
      rw [join, ih (List.cons_ne_nil q qs)]
      · rfl
      · exact List.cons_ne_nil q qs

-- ================================================ cutting at one place

/-- The text before and after the last occurrence of `c`, if it occurs. -/
def aroundLast (c : Char) : List Char → Option (List Char × List Char)
  | [] => none
  | x :: xs =>
    match aroundLast c xs with
    | some (before, after) => some (x :: before, after)
    | none => if x = c then some ([], xs) else none

theorem aroundLast_of_notMem {c : Char} {s : List Char} (h : c ∉ s) : aroundLast c s = none := by
  induction s with
  | nil => rfl
  | cons x xs ih =>
    rw [List.mem_cons, not_or] at h
    rw [aroundLast, ih h.2]
    exact if_neg fun hx => h.1 hx.symm

/-- The last occurrence is the one behind which there is no other. -/
theorem aroundLast_append {c : Char} {before after : List Char} (h : c ∉ after) :
    aroundLast c (before ++ c :: after) = some (before, after) := by
  induction before with
  | nil =>
    rw [List.nil_append, aroundLast, aroundLast_of_notMem h]
    exact if_pos rfl
  | cons x xs ih => rw [List.cons_append, aroundLast, ih]

/-- What occurs has a last occurrence. -/
theorem exists_last_of_mem {c : Char} {s : List Char} (h : c ∈ s) :
    ∃ before after, s = before ++ c :: after ∧ c ∉ after := by
  induction s with
  | nil => cases h
  | cons x xs ih =>
    by_cases hxs : c ∈ xs
    · obtain ⟨before, after, rfl, hafter⟩ := ih hxs
      exact ⟨x :: before, after, rfl, hafter⟩
    · rcases List.mem_cons.1 h with rfl | hmem
      · exact ⟨[], xs, rfl, hxs⟩
      · exact absurd hmem hxs

/-- The text before and after the first occurrence of `c`, if it occurs. -/
def aroundFirst (c : Char) : List Char → Option (List Char × List Char)
  | [] => none
  | x :: xs =>
    if x = c then some ([], xs)
    else (aroundFirst c xs).map fun (before, after) => (x :: before, after)

/-- The first occurrence is the one before which there is no other. -/
theorem aroundFirst_eq_some_iff {c : Char} {s before after : List Char} :
    aroundFirst c s = some (before, after) ↔ s = before ++ c :: after ∧ c ∉ before := by
  induction s generalizing before with
  | nil => simp [aroundFirst]
  | cons x xs ih =>
    rw [aroundFirst]
    by_cases hx : x = c
    · rw [if_pos hx, Option.some.injEq, Prod.mk.injEq]
      constructor
      · rintro ⟨rfl, rfl⟩
        exact ⟨by rw [hx, List.nil_append], List.not_mem_nil⟩
      · rintro ⟨hs, hc⟩
        cases before with
        | nil => exact ⟨rfl, (List.cons.inj hs).2⟩
        | cons y ys =>
          obtain ⟨rfl, -⟩ := List.cons.inj hs
          exact absurd hx.symm (List.ne_of_not_mem_cons hc)
    · rw [if_neg hx, Option.map_eq_some_iff]
      constructor
      · rintro ⟨⟨front, rest⟩, hfirst, heq⟩
        obtain ⟨rfl, rfl⟩ := Prod.mk.inj heq
        obtain ⟨rfl, hc⟩ := ih.1 hfirst
        refine ⟨rfl, ?_⟩
        rw [List.mem_cons, not_or]
        exact ⟨Ne.symm hx, hc⟩
      · rintro ⟨hs, hc⟩
        cases before with
        | nil => exact absurd (List.cons.inj hs).1 hx
        | cons y ys =>
          obtain ⟨rfl, hxs⟩ := List.cons.inj hs
          exact ⟨(ys, after), ih.2 ⟨hxs, List.not_mem_of_not_mem_cons hc⟩, rfl⟩

/-- Whether `s` ends with `tail`. -/
def endsWith (s tail : List Char) : Bool :=
  tail.isSuffixOf s

end ModuleAtlas.Text
