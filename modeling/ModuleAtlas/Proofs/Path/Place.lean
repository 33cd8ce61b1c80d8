/-
Places: where a walk along segments leads.

# One walk

From a place each segment leads nowhere else, up, or down (`step`), and
there is nothing above the root. The normal form of an absolute path
spells the place that its segments lead to from the root
(`normalize_eq_write`).

# Parts of the way first

A relative path can be brought into normal form before it is followed:
what it drops is a way down and up again, and that leads back to where
it began, wherever that is (`follow_collapse`).

# Places as texts

A place is spelled with each of its segments behind a slash
(`wayDown`), the root with a slash alone. Its directory and what lies
beside and below it are then read off the text.
-/
import Mathlib.Data.List.Induction
import ModuleAtlas.Proofs.Path

namespace ModuleAtlas.Path

-- ============================================================ segments

/-- A segment that leads down: it is not empty, it is no way to stay or
to leave, and it is one segment. -/
structure IsSegment (s : String) : Prop where
  ne_empty : s ≠ ""
  ne_dot : s ≠ "."
  ne_dots : s ≠ ".."
  slash : '/' ∉ s.toList

instance (s : String) : Decidable (IsSegment s) :=
  decidable_of_iff (s ≠ "" ∧ s ≠ "." ∧ s ≠ ".." ∧ '/' ∉ s.toList)
    ⟨fun h => ⟨h.1, h.2.1, h.2.2.1, h.2.2.2⟩,
      fun h => ⟨h.ne_empty, h.ne_dot, h.ne_dots, h.slash⟩⟩

/-- All of these lead down, so the list is a place. -/
def IsPlace (place : List String) : Prop :=
  ∀ s ∈ place, IsSegment s

variable {place : List String} {s path : String}

theorem IsPlace.dropLast (h : IsPlace place) : IsPlace place.dropLast :=
  fun s hs => h s (List.dropLast_subset place hs)

theorem IsPlace.append {place' : List String} (h : IsPlace place)
    (h' : IsPlace place') : IsPlace (place ++ place') :=
  List.forall_mem_append.2 ⟨h, h'⟩

theorem IsPlace.concat (h : IsPlace place) (hs : IsSegment s) :
    IsPlace (place ++ [s]) :=
  h.append (List.forall_mem_singleton.2 hs)

/-- What stands between the slashes of a path holds none. -/
theorem slash_notMem_of_mem_segments (h : s ∈ segments path) :
    '/' ∉ s.toList := by
  obtain ⟨piece, hpiece, rfl⟩ := List.mem_map.1 h
  rw [String.toList_ofList]
  exact Text.notMem_of_mem_split hpiece

-- ================================================================ walks

/-- Where a segment leads from a place. -/
def step (place : List String) (segment : String) : List String :=
  if segment = "" ∨ segment = "." then place
  else if segment = ".." then place.dropLast
  else place ++ [segment]

/-- Where segments lead from a place, one after the other. -/
def follow (place segments : List String) : List String :=
  segments.foldl step place

theorem step_of_isSegment (place : List String) (h : IsSegment s) :
    step place s = place ++ [s] := by
  unfold step
  rw [if_neg (not_or.2 ⟨h.ne_empty, h.ne_dot⟩), if_neg h.ne_dots]

theorem step_dot (place : List String) : step place "." = place := by
  unfold step
  rw [if_pos (.inr rfl)]

theorem step_dots (place : List String) : step place ".." = place.dropLast := by
  unfold step
  rw [if_neg (by decide), if_pos rfl]

theorem follow_cons (place : List String) (s : String) (way : List String) :
    follow place (s :: way) = follow (step place s) way := rfl

theorem follow_append (place xs ys : List String) :
    follow place (xs ++ ys) = follow (follow place xs) ys :=
  List.foldl_append

theorem IsPlace.step (h : IsPlace place) (hslash : '/' ∉ s.toList) :
    IsPlace (step place s) := by
  unfold Path.step
  split
  · exact h
  · next hstay =>
    rw [not_or] at hstay
    split
    · exact h.dropLast
    · next hdots => exact h.concat ⟨hstay.1, hstay.2, hdots, hslash⟩

/-- A walk from a place ends in a place. -/
theorem IsPlace.follow {segments : List String} (h : IsPlace place)
    (hslash : ∀ s ∈ segments, '/' ∉ s.toList) :
    IsPlace (follow place segments) := by
  induction segments generalizing place with
  | nil => exact h
  | cons s segments ih =>
      rw [List.forall_mem_cons] at hslash
      exact ih (h.step hslash.1) hslash.2

theorem isPlace_nil : IsPlace [] := by
  intro s hs
  cases hs

theorem isPlace_follow_segments (path : String) :
    IsPlace (follow [] (segments path)) :=
  isPlace_nil.follow fun _ => slash_notMem_of_mem_segments

/-- The segments of a place lead down to it. -/
theorem follow_of_isPlace {segments : List String} (h : IsPlace segments)
    (place : List String) : follow place segments = place ++ segments := by
  induction segments generalizing place with
  | nil => simp [follow]
  | cons s segments ih =>
      obtain ⟨hs, hrest⟩ := List.forall_mem_cons.1 h
      rw [follow_cons, step_of_isSegment place hs, ih hrest, List.append_assoc,
        List.singleton_append]

-- ========================================================= normal forms

/-- From the root, the stack of a normal form holds the place reached. -/
theorem reverse_descend_root (h : IsPlace place) (s : String) :
    (descend true place.reverse s).reverse = step place s := by
  unfold descend step
  split
  · simp
  · split
    · induction place using List.reverseRecOn with
      | nil => rfl
      | append_singleton outer last =>
          have hlast : last ≠ ".." := (h last (by simp)).ne_dots
          simp [hlast]
    · simp

theorem collapse_root (segments : List String)
    (hslash : ∀ s ∈ segments, '/' ∉ s.toList) :
    collapse true segments = follow [] segments := by
  suffices hfrom : ∀ place, IsPlace place →
      (segments.foldl (descend true) place.reverse).reverse =
        follow place segments from hfrom [] isPlace_nil
  induction segments with
  | nil =>
      intro place _
      simp [follow]
  | cons s segments ih =>
      intro place hplace
      rw [List.forall_mem_cons] at hslash
      have hs := reverse_descend_root hplace s
      rw [List.reverse_eq_iff] at hs
      rw [List.foldl_cons, hs]
      exact ih hslash.2 _ (hplace.step hslash.1)

/-- An absolute path is brought into normal form by a walk. -/
theorem normalize_eq_write_succ {n : Nat} (h : lead path = n + 1) :
    normalize path = write (n + 1) (follow [] (segments path)) := by
  unfold normalize
  rw [h]
  exact congrArg (write (n + 1))
    (collapse_root _ fun _ => slash_notMem_of_mem_segments)

theorem normalize_eq_write (h : lead path = 1) :
    normalize path = write 1 (follow [] (segments path)) :=
  normalize_eq_write_succ h

-- ================================================ relative normal forms

/-- A segment that leads somewhere else, down or up. -/
def IsWay (s : String) : Prop :=
  IsSegment s ∨ s = ".."

theorem IsWay.ne_empty (h : IsWay s) : s ≠ "" := by
  rcases h with h | rfl
  · exact h.ne_empty
  · decide

theorem IsWay.slash (h : IsWay s) : '/' ∉ s.toList := by
  rcases h with h | rfl
  · exact h.slash
  · decide

/-- It does not begin with a slash. -/
theorem IsWay.exists_cons (h : IsWay s) :
    ∃ c cs, s.toList = c :: cs ∧ c ≠ '/' := by
  have hslash := h.slash
  cases hchars : s.toList with
  | nil => exact absurd (String.toList_eq_nil_iff.1 hchars) h.ne_empty
  | cons c cs =>
      rw [hchars, List.mem_cons, not_or] at hslash
      exact ⟨c, cs, rfl, Ne.symm hslash.1⟩

variable {entered way : List String}

/-- A normal form keeps no segment that leads nowhere. -/
theorem isWay_of_mem_descend (h : ∀ e ∈ entered, IsWay e)
    (hs : '/' ∉ s.toList) : ∀ e ∈ descend false entered s, IsWay e := by
  unfold descend
  split
  · exact h
  · next hstay =>
    rw [not_or] at hstay
    split
    · cases entered with
      | nil => simp [IsWay]
      | cons last outer =>
          dsimp only
          split
          · exact List.forall_mem_cons.2 ⟨.inr rfl, h⟩
          · exact (List.forall_mem_cons.1 h).2
    · next hdots =>
      exact List.forall_mem_cons.2
        ⟨.inl ⟨hstay.1, hstay.2, hdots, hs⟩, h⟩

/-- Without a root, each step of a normal form keeps where it leads: a
way up cancels the way down before it, and else is kept itself. -/
theorem follow_descend (h : ∀ e ∈ entered, IsWay e) (s : String)
    (place : List String) :
    follow place (descend false entered s).reverse =
      step (follow place entered.reverse) s := by
  unfold descend
  split
  · next hstay =>
    unfold step
    rw [if_pos hstay]
  · split
    · next hdots =>
      subst hdots
      cases entered with
      | nil => rfl
      | cons last outer =>
          dsimp only
          split
          · rw [List.reverse_cons, follow_append]
            rfl
          · next hlast =>
            have hdown := (h last (List.mem_cons_self ..)).resolve_right hlast
            rw [List.reverse_cons, follow_append]
            show _ = step (step _ last) ".."
            rw [step_of_isSegment _ hdown, step_dots, List.dropLast_concat]
    · rw [List.reverse_cons, follow_append]
      rfl

theorem foldl_descend (hslash : ∀ s ∈ way, '/' ∉ s.toList)
    (h : ∀ e ∈ entered, IsWay e) :
    (∀ e ∈ way.foldl (descend false) entered, IsWay e) ∧
      ∀ place, follow place (way.foldl (descend false) entered).reverse =
        follow (follow place entered.reverse) way := by
  induction way generalizing entered with
  | nil => exact ⟨h, fun _ => rfl⟩
  | cons s way ih =>
      rw [List.forall_mem_cons] at hslash
      obtain ⟨hways, hfollow⟩ := ih hslash.2 (isWay_of_mem_descend h hslash.1)
      refine ⟨hways, fun place => ?_⟩
      rw [List.foldl_cons, hfollow, follow_descend h]
      rfl

theorem isWay_of_mem_collapse (hslash : ∀ s ∈ way, '/' ∉ s.toList)
    (h : s ∈ collapse false way) : IsWay s :=
  (foldl_descend hslash (List.forall_mem_nil _)).1 s (List.mem_reverse.1 h)

/-- A relative path and its normal form lead to the same place, wherever
they start. -/
theorem follow_collapse (hslash : ∀ s ∈ way, '/' ∉ s.toList)
    (place : List String) :
    follow place (collapse false way) = follow place way :=
  (foldl_descend hslash (List.forall_mem_nil _)).2 place

/-- A way that is written is read again. -/
theorem segments_write_ways (hne : way ≠ [])
    (h : ∀ s ∈ way, IsWay s) : segments (write 0 way) = way := by
  have htext : Text.join '/' (way.map String.toList) ≠ [] := by
    cases way with
    | nil => exact absurd rfl hne
    | cons s rest =>
        obtain ⟨c, cs, hchars, -⟩ := (h s (List.mem_cons_self ..)).exists_cons
        cases rest <;> simp [Text.join, hchars]
  have hsplit : Text.split '/' (Text.join '/' (way.map String.toList)) =
      way.map String.toList := by
    refine Text.split_join (by simpa using hne) fun piece hpiece => ?_
    obtain ⟨s, hs, rfl⟩ := List.mem_map.1 hpiece
    exact (h s hs).slash
  unfold write segments
  simp only [List.replicate_zero, List.nil_append]
  rw [if_neg (by simpa using htext), String.toList_ofList, hsplit, List.map_map]
  simp [Function.comp_def]

theorem follow_segments_write_ways (h : ∀ s ∈ way, IsWay s)
    (place : List String) :
    follow place (segments (write 0 way)) = follow place way := by
  by_cases hne : way = []
  · subst hne
    rfl
  · rw [segments_write_ways hne h]

/-- The normal form of a relative path leads where the path does. -/
theorem follow_normalize (h : lead path = 0) (place : List String) :
    follow place (segments (normalize path)) =
      follow place (segments path) := by
  have hslash : ∀ s ∈ segments path, '/' ∉ s.toList := fun _ =>
    slash_notMem_of_mem_segments
  unfold normalize
  rw [h]
  exact (follow_segments_write_ways
    (fun _ => isWay_of_mem_collapse hslash) place).trans
      (follow_collapse hslash place)

theorem isAbsolute_write_ways (h : ∀ s ∈ way, IsWay s) : isAbsolute (write 0 way) = false := by
  cases way with
  | nil => rfl
  | cons s rest =>
      obtain ⟨c, cs, hchars, hc⟩ := (h s (List.mem_cons_self ..)).exists_cons
      unfold isAbsolute write
      cases rest <;> simp [Text.join, hchars, hc]

theorem isAbsolute_normalize (h : lead path = 0) :
    isAbsolute (normalize path) = false := by
  have hslash : ∀ s ∈ segments path, '/' ∉ s.toList := fun _ =>
    slash_notMem_of_mem_segments
  unfold normalize
  rw [h]
  exact isAbsolute_write_ways fun _ => isWay_of_mem_collapse hslash

-- ====================================================== places as texts

/-- The text of the way down to a place: each segment behind a slash. -/
def wayDown (place : List String) : List Char :=
  place.flatMap fun s => '/' :: s.toList

theorem wayDown_concat (place : List String) (s : String) :
    wayDown (place ++ [s]) = wayDown place ++ '/' :: s.toList := by
  simp [wayDown]

theorem write_root : write 1 [] = "/" := by decide

/-- Behind the slashes that count stand the names. -/
theorem toList_write_lead (n : Nat) (names : List String) :
    (write (n + 1) names).toList =
      List.replicate (n + 1) '/' ++ Text.join '/' (names.map String.toList) := by
  unfold write
  rw [if_neg (by simp [List.replicate_succ]), String.toList_ofList]

theorem isAbsolute_write (n : Nat) (names : List String) :
    isAbsolute (write (n + 1) names) = true := by
  unfold isAbsolute
  rw [toList_write_lead]
  rfl

/-- Where there are names, the last of these slashes is that of the way
down. -/
theorem toList_write_succ (hne : place ≠ []) (n : Nat) :
    (write (n + 1) place).toList = List.replicate n '/' ++ wayDown place := by
  have hjoin : '/' :: Text.join '/' (place.map String.toList) =
      wayDown place := by
    rw [Text.cons_join (by simpa using hne), List.flatMap_map]
    rfl
  rw [toList_write_lead, List.replicate_succ', List.append_assoc, List.singleton_append, hjoin]

theorem toList_write (hne : place ≠ []) :
    (write 1 place).toList = wayDown place :=
  toList_write_succ hne 0

theorem toList_write_concat (place : List String) (s : String) :
    (write 1 (place ++ [s])).toList = wayDown place ++ '/' :: s.toList := by
  rw [toList_write (by simp), wayDown_concat]

/-- To write more behind a path is to write more behind its last name. -/
theorem write_concat_append (place : List String) (s t : String) :
    write 1 (place ++ [s]) ++ t = write 1 (place ++ [s ++ t]) := by
  apply String.toList_injective
  rw [String.toList_append, toList_write_concat, toList_write_concat,
    String.toList_append, List.append_assoc, List.cons_append]

theorem segments_wayDown (h : ∀ s ∈ place, '/' ∉ s.toList) :
    segments (String.ofList (wayDown place)) = "" :: place := by
  induction place using List.reverseRecOn with
  | nil => decide
  | append_singleton outer s ih =>
      rw [wayDown_concat, segments_append_cons,
        ih fun s' hs' => h s' (List.mem_append_left _ hs'),
        segments_of_notMem (h s (by simp)), String.ofList_toList]
      rfl

/-- What a place and more behind a slash begin with is one slash. -/
theorem lead_wayDown {rest : List Char} (h : IsPlace place)
    (hrest : rest.head? ≠ some '/') (hpath : path.toList = wayDown place ++ '/' :: rest) :
    lead path = 1 := by
  have hone : ∀ cs : List Char, cs.head? ≠ some '/' →
      path.toList = '/' :: cs → lead path = 1 := by
    intro cs hcs hpath
    unfold lead
    rw [hpath]
    cases cs with
    | nil => rfl
    | cons c cs =>
        have hc : c ≠ '/' := by simpa using hcs
        simp [hc]
  cases place with
  | nil => exact hone rest hrest hpath
  | cons s place =>
      obtain ⟨c, cs, hchars, hc⟩ :=
        IsWay.exists_cons (.inl (h s (List.mem_cons_self ..)))
      refine hone (s.toList ++ (wayDown place ++ '/' :: rest)) ?_ ?_
      · simpa [hchars] using hc
      · simpa [wayDown] using hpath

theorem lead_write (h : IsPlace place) : lead (write 1 place) = 1 := by
  induction place using List.reverseRecOn with
  | nil => decide
  | append_singleton outer s =>
      have hs := h s (by simp)
      exact lead_wayDown (fun s' hs' => h s' (List.mem_append_left _ hs'))
        (fun hhead => hs.slash (List.mem_of_mem_head? hhead))
        (toList_write_concat outer s)

theorem isAbsolute_of_lead (h : lead path = 1) : isAbsolute path = true := by
  unfold lead at h
  unfold isAbsolute
  split at h <;> simp_all

theorem lead_ne_zero (h : isAbsolute path = true) : lead path ≠ 0 := by
  obtain ⟨cs, hchars⟩ := List.head?_eq_some_iff.1 (beq_iff_eq.1 h)
  unfold lead
  rw [hchars]
  split <;> simp_all

/-- The path of a place leads to it from the root. -/
theorem follow_segments_write (h : IsPlace place) :
    follow [] (segments (write 1 place)) = place := by
  have hslash : ∀ s ∈ place, '/' ∉ s.toList := fun s hs => (h s hs).slash
  by_cases hne : place = []
  · subst hne
    decide
  · have htext : write 1 place = String.ofList (wayDown place) := by
      rw [← toList_write hne, String.ofList_toList]
    rw [htext, segments_wayDown hslash]
    exact (follow_of_isPlace h []).trans (List.nil_append _)

/-- It is in normal form. -/
theorem normalize_write (h : IsPlace place) :
    normalize (write 1 place) = write 1 place := by
  rw [normalize_eq_write (lead_write h), follow_segments_write h]

-- ===================================================== beside and below

/-- What ends in a name ends in no slash. -/
theorem getLast?_append_name {name : List Char} (hne : name ≠ []) (hname : '/' ∉ name)
    (front : List Char) : (front ++ name).getLast? ≠ some '/' := by
  rw [List.getLast?_append, List.getLast?_eq_some_getLast hne, Option.some_or,
    ← List.getLast?_eq_some_getLast hne]
  exact fun hlast => hname (List.mem_of_getLast? hlast)

theorem getLast?_write_concat (place : List String) (h : IsSegment s) :
    (write 1 (place ++ [s])).toList.getLast? ≠ some '/' := by
  have hne : s.toList ≠ [] := mt String.toList_eq_nil_iff.1 h.ne_empty
  rw [toList_write_concat, List.append_cons]
  exact getLast?_append_name hne h.slash _

/-- Behind a directory that ends in no slash comes one, and then the
relative path. -/
theorem join_of_getLast? {dir : String} (hne : dir ≠ "")
    (hlast : dir.toList.getLast? ≠ some '/') (hrel : isAbsolute path = false) :
    join dir path = dir ++ "/" ++ path := by
  unfold join
  rw [hrel, if_neg Bool.false_ne_true, if_neg (not_or.2 ⟨hne, hlast⟩)]

/-- A path below a place is the way down to it and then the path. -/
theorem toList_join_write (h : IsPlace place) (hrel : isAbsolute path = false) :
    (join (write 1 place) path).toList = wayDown place ++ '/' :: path.toList := by
  induction place using List.reverseRecOn with
  | nil =>
      unfold join
      rw [hrel, if_neg Bool.false_ne_true, write_root, if_pos (by decide),
        String.toList_append]
      rfl
  | append_singleton outer s =>
      rw [join_of_getLast? (write_ne_empty _ _)
          (getLast?_write_concat _ (h s (by simp))) hrel,
        String.toList_append, String.toList_append, toList_write_concat,
        wayDown_concat]
      simp

theorem join_write (h : IsPlace place) (hrel : isAbsolute path = false) :
    join (write 1 place) path = write 1 (place ++ [path]) := by
  apply String.toList_injective
  rw [toList_join_write h hrel, toList_write_concat]

/-- The normal form of a relative path, as seen from a place, is where
its segments lead from there. -/
theorem normalize_join (h : IsPlace place) (hrel : isAbsolute path = false) :
    normalize (join (write 1 place) path) =
      write 1 (follow place (segments path)) := by
  have htext := toList_join_write h hrel
  have hhead : path.toList.head? ≠ some '/' := by
    unfold isAbsolute at hrel
    simpa using hrel
  have hslash : ∀ s ∈ place, '/' ∉ s.toList := fun s hs => (h s hs).slash
  have hsegments : segments (join (write 1 place) path) =
      "" :: place ++ segments path := by
    rw [← String.ofList_toList (s := join _ _), htext, segments_append_cons,
      segments_wayDown hslash, String.ofList_toList]
  rw [normalize_eq_write (lead_wayDown h hhead htext), hsegments,
    follow_append]
  refine congrArg (fun p => write 1 (follow p _)) ?_
  exact (follow_of_isPlace h []).trans (List.nil_append _)

/-- The directory of a path is what stands before the slash in front of its
last name, unless more slashes do. -/
theorem directory_append_name {dir name : List Char} (hne : dir ≠ [])
    (hlast : dir.getLast? ≠ some '/') (hname : '/' ∉ name) :
    directory (String.ofList (dir ++ '/' :: name)) = String.ofList dir := by
  have htrim : (dir.reverse.dropWhile (· == '/')).reverse = dir := by
    rw [← List.head?_reverse] at hlast
    cases hrev : dir.reverse with
    | nil => exact absurd (List.reverse_eq_nil_iff.1 hrev) hne
    | cons c cs =>
        rw [hrev] at hlast
        rw [List.dropWhile_cons_of_neg (by simpa using hlast), ← hrev,
          List.reverse_reverse]
  unfold directory
  rw [String.toList_ofList, Text.aroundLast_append hname]
  dsimp only
  rw [htrim, if_neg (by simpa using hne)]

/-- The directory of a place is the place above it. -/
theorem directory_write (h : IsPlace place) :
    directory (write 1 place) = write 1 place.dropLast := by
  induction place using List.reverseRecOn with
  | nil => decide
  | append_singleton outer s _ =>
      have hs := h s (by simp)
      have htext : write 1 (outer ++ [s]) =
          String.ofList (wayDown outer ++ '/' :: s.toList) := by
        rw [← toList_write_concat, String.ofList_toList]
      rw [List.dropLast_concat]
      induction outer using List.reverseRecOn with
      | nil =>
          rw [htext]
          unfold directory
          rw [String.toList_ofList, Text.aroundLast_append hs.slash]
          rfl
      | append_singleton outer last _ =>
          have hdir : wayDown (outer ++ [last]) = (write 1 (outer ++ [last])).toList :=
            (toList_write (by simp)).symm
          rw [htext, hdir, directory_append_name _ _ hs.slash, String.ofList_toList]
          · simpa using write_ne_empty 1 (outer ++ [last])
          · exact getLast?_write_concat outer (h last (by simp))

end ModuleAtlas.Path
