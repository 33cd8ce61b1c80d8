/-
Paths, written and read.

What is written is never the empty text, whatever it is written from. A
name is one segment (`IsName`): no separator is in it, and no dot in
front makes it a way elsewhere. So a walk enters it, and `./` before it
changes nothing.
-/
import ModuleAtlas.Path

namespace ModuleAtlas.Path

theorem write_ne_empty (lead : Nat) (segments : List String) :
    write lead segments ≠ "" := by
  unfold write
  dsimp only
  split
  · decide
  · next hne =>
    intro h
    rw [String.ofList_eq_empty_iff] at h
    exact hne (List.isEmpty_iff.2 h)

theorem absolute_ne_empty (here path : String) : absolute here path ≠ "" :=
  write_ne_empty _ _

-- ============================================================ segments

theorem segments_ne_nil (path : String) : segments path ≠ [] :=
  mt List.map_eq_nil_iff.1 (Text.split_ne_nil '/' path.toList)

/-- A text without a slash is one segment. -/
theorem segments_of_notMem {s : List Char} (h : '/' ∉ s) :
    segments (String.ofList s) = [String.ofList s] := by
  unfold segments
  rw [String.toList_ofList, Text.split_of_notMem h]
  rfl

/-- A slash ends the segments before it. -/
theorem segments_append_cons (s t : List Char) :
    segments (String.ofList (s ++ '/' :: t)) =
      segments (String.ofList s) ++ segments (String.ofList t) := by
  unfold segments
  simp only [String.toList_ofList, Text.split_append_cons, List.map_append]

/-- A path is its segments with a slash between each two. -/
theorem join_segments (path : String) :
    Text.join '/' ((segments path).map String.toList) = path.toList := by
  unfold segments
  rw [List.map_map]
  simp [Function.comp_def, Text.join_split]

theorem segments_injective {path path' : String} (h : segments path = segments path') :
    path = path' := by
  apply String.toList_injective
  rw [← join_segments, h, join_segments]

/-- What starts with a slash is seen alike from everywhere. -/
theorem join_cons (dir : String) (s : List Char) :
    join dir (String.ofList ('/' :: s)) = String.ofList ('/' :: s) := by
  unfold join isAbsolute
  rw [String.toList_ofList]
  rfl

-- =============================================================== names

/-- A name that is no way elsewhere. -/
structure IsName (name : List Char) : Prop where
  ne_nil : name ≠ []
  slash : '/' ∉ name
  backslash : '\\' ∉ name
  dot : name.head? ≠ some '.'

namespace IsName

variable {name : List Char}

/-- The empty text and what a dot starts are no names. -/
theorem ofList_ne (h : IsName name) :
    String.ofList name ≠ "" ∧ String.ofList name ≠ "." ∧
      String.ofList name ≠ ".." := by
  have hdot : ∀ rest, String.ofList name ≠ String.ofList ('.' :: rest) := by
    intro rest he
    rw [String.ofList_injective he] at h
    exact h.dot rfl
  exact ⟨fun he => h.ne_nil (String.ofList_eq_empty_iff.1 he), hdot [],
    hdot ['.']⟩

/-- A walk enters a name. -/
theorem descend (h : IsName name) (rooted : Bool) (entered : List String) :
    Path.descend rooted entered (String.ofList name) =
      String.ofList name :: entered := by
  obtain ⟨hne, hdot, hdots⟩ := h.ofList_ne
  unfold Path.descend
  rw [if_neg (not_or.2 ⟨hne, hdot⟩), if_neg hdots]

/-- A name behind a slash is the last segment. -/
theorem segments_append (h : IsName name) (s : List Char) :
    segments (String.ofList (s ++ '/' :: name)) =
      segments (String.ofList s) ++ [String.ofList name] := by
  rw [segments_append_cons, segments_of_notMem h.slash]

/-- So it stays the last one of the normal form. -/
theorem normalize_append (h : IsName name) (s : List Char) (leading : Nat)
    (hlead : lead (String.ofList (s ++ '/' :: name)) = leading) :
    normalize (String.ofList (s ++ '/' :: name)) =
      write leading
        (collapse (leading != 0) (segments (String.ofList s)) ++
          [String.ofList name]) := by
  unfold normalize collapse
  rw [hlead, h.segments_append, List.foldl_append, List.foldl_cons,
    List.foldl_nil, h.descend, List.reverse_cons]

theorem normalize_dot (h : IsName name) :
    normalize (String.ofList ('.' :: '/' :: name)) = String.ofList name := by
  refine (h.normalize_append ['.'] 0 (by simp [lead])).trans ?_
  have hfront : collapse (0 != 0) (segments (String.ofList ['.'])) = [] := by
    decide
  rw [hfront]
  simp [write, Text.join, h.ne_nil]

theorem normalize_root (h : IsName name) :
    normalize (String.ofList ('/' :: '.' :: '/' :: name)) =
      String.ofList ('/' :: name) := by
  refine (h.normalize_append ['/', '.'] 1 (by simp [lead])).trans ?_
  have hfront : collapse (1 != 0) (segments (String.ofList ['/', '.'])) = [] := by
    decide
  rw [hfront]
  simp [write, Text.join]

end IsName

/-- A name of one byte more than a system allows. -/
def longName : List Char :=
  List.replicate 256 'x'

theorem isName_longName : IsName longName := by
  constructor <;> decide

end ModuleAtlas.Path
