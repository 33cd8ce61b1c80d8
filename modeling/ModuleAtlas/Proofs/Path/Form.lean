/-
The form of a normal form.

# Short ways

Where there is no root, a way up that has no way down to cancel is kept,
and so is each way up behind it. So the segments that remain lead up
first and then down (`isShort_collapse`). A way of this form has nothing
to cancel and remains as it is (`IsShort.collapse_eq`).

# Normal forms

A normal form is `.`, a short way, or one or two slashes and a place
(`isNormal_normalize`). These forms are their own normal forms and no
other path is (`normalize_eq_self_iff`), so the normal form of a normal
form is the same again.
-/
import ModuleAtlas.Proofs.Path.Folder
import ModuleAtlas.Proofs.Path.Normal

namespace ModuleAtlas.Path

variable {path s : String} {entered place way : List String} {n : Nat}

-- ================================================================ texts

theorem write_segments (h : path ≠ "") : write 0 (segments path) = path := by
  unfold write
  rw [join_segments, List.replicate_zero, List.nil_append]
  simp [h]

theorem write_succ_segments (n : Nat) (path : String) :
    write (n + 1) (segments path) = String.ofList (List.replicate (n + 1) '/') ++ path := by
  apply String.toList_injective
  rw [toList_write_lead, join_segments]
  simp

theorem ne_empty_of_isWay (h : ∀ s ∈ segments path, IsWay s) : path ≠ "" := by
  rintro rfl
  exact (h "" (by decide)).ne_empty rfl

/-- A path begins with its first segment, and then it ends or a slash
follows. -/
theorem toList_of_segments (h : segments path = s :: way) :
    ∃ more, path.toList = s.toList ++ more ∧
      more.head? = if way = [] then none else some '/' := by
  rw [← join_segments, h]
  cases way with
  | nil => exact ⟨[], by simp [Text.join], rfl⟩
  | cons next way => exact ⟨_, rfl, rfl⟩

/-- What a path begins with, its first segment begins with, unless it is a
slash. -/
theorem head?_of_segments {c : Char} (h : segments path = s :: way) (hc : c ≠ '/')
    (hhead : path.toList.head? = some c) : s.toList.head? = some c := by
  obtain ⟨more, htext, hmore⟩ := toList_of_segments h
  rw [htext, List.head?_append] at hhead
  cases hfirst : s.toList.head? with
  | some d =>
      rw [hfirst] at hhead
      exact hhead
  | none =>
      rw [hfirst, Option.none_or, hmore] at hhead
      split at hhead
      · cases hhead
      · exact absurd (Option.some.inj hhead).symm hc

-- =========================================================== short ways

/-- A way without detours: each segment leads up or down, and none leads up
behind one that leads down. -/
structure IsShort (way : List String) : Prop where
  ways : ∀ s ∈ way, IsWay s
  upFirst : way.Pairwise fun s t => t = ".." → s = ".."

/-- A way that does not begin upwards leads down all along. -/
theorem IsShort.isPlace (h : IsShort (s :: way)) (hs : s ≠ "..") : IsPlace (s :: way) := by
  obtain ⟨hfirst, -⟩ := List.pairwise_cons.1 h.upFirst
  intro t ht
  refine (h.ways t ht).resolve_right ?_
  rintro rfl
  rcases List.mem_cons.1 ht with heq | ht
  · exact hs heq.symm
  · exact hs (hfirst _ ht rfl)

theorem IsPlace.isShort (h : IsPlace way) : IsShort way where
  ways s hs := .inl (h s hs)
  upFirst := List.pairwise_of_forall_mem_list fun _ _ t ht hdots => absurd hdots (h t ht).ne_dots

/-- On the stack the last segment comes first: below a way up there are
only ways up. -/
theorem pairwise_descend (h : entered.Pairwise fun t s => t = ".." → s = "..") (s : String) :
    (descend false entered s).Pairwise fun t s => t = ".." → s = ".." := by
  unfold descend
  split
  · exact h
  · split
    · cases entered with
      | nil => exact List.pairwise_singleton _ _
      | cons last outer =>
          obtain ⟨hlast, houter⟩ := List.pairwise_cons.1 h
          dsimp only
          split
          · next hdots =>
            refine List.pairwise_cons.2 ⟨fun t ht _ => ?_, h⟩
            rcases List.mem_cons.1 ht with rfl | ht
            · exact hdots
            · exact hlast t ht hdots
          · exact houter
    · next hdots =>
      exact List.pairwise_cons.2 ⟨fun _ _ heq => absurd heq hdots, h⟩

theorem pairwise_foldl_descend (way : List String)
    (h : entered.Pairwise fun t s => t = ".." → s = "..") :
    (way.foldl (descend false) entered).Pairwise fun t s => t = ".." → s = ".." := by
  induction way generalizing entered with
  | nil => exact h
  | cons s way ih => exact ih (pairwise_descend h s)

/-- What remains of a way is short. -/
theorem isShort_collapse (hslash : ∀ s ∈ way, '/' ∉ s.toList) :
    IsShort (collapse false way) where
  ways _ := isWay_of_mem_collapse hslash
  upFirst := List.pairwise_reverse.2 (pairwise_foldl_descend way .nil)

/-- A segment that leads somewhere is kept, unless it leads up behind one
that leads down. -/
theorem descend_of_isWay (hs : IsWay s) (h : s = ".." → ∀ e ∈ entered, e = "..") :
    descend false entered s = s :: entered := by
  rcases hs with hs | rfl
  · exact descend_of_isSegment false entered hs
  · cases entered with
    | nil => rfl
    | cons last outer =>
        obtain rfl := h rfl last (List.mem_cons_self ..)
        rfl

/-- A short way has nothing to cancel. -/
theorem IsShort.collapse_eq (h : IsShort way) : collapse false way = way := by
  induction way using List.reverseRecOn with
  | nil => rfl
  | append_singleton way s ih =>
      obtain ⟨hways, hup⟩ := h
      rw [List.forall_mem_append] at hways
      rw [List.pairwise_append] at hup
      have hstack : way.foldl (descend false) [] = way.reverse :=
        List.reverse_eq_iff.1 (ih ⟨hways.1, hup.1⟩)
      unfold collapse
      rw [List.foldl_append, hstack, List.foldl_cons, List.foldl_nil,
        descend_of_isWay (hways.2 s (by simp)), List.reverse_cons, List.reverse_reverse]
      intro hs e he
      exact hup.2.2 e (List.mem_reverse.1 he) s (by simp) hs

-- ========================================================= normal forms

/-- The forms of a normal form. -/
inductive IsNormal : (path : String) → Prop
  | here : IsNormal "."
  | short {path : String} : IsShort (segments path) → IsNormal path
  | root {front : String} : front ∈ ["/", "//"] → IsNormal front
  | below {front path : String} :
      front ∈ ["/", "//"] → IsPlace (segments path) → IsNormal (front ++ path)

theorem ofList_replicate_mem (hn : n ≤ 1) :
    String.ofList (List.replicate (n + 1) '/') ∈ ["/", "//"] := by
  obtain rfl | rfl := Nat.le_one_iff_eq_zero_or_eq_one.1 hn <;> decide

theorem exists_eq_ofList_replicate {front : String} (h : front ∈ ["/", "//"]) :
    ∃ n ≤ 1, front = String.ofList (List.replicate (n + 1) '/') := by
  rcases List.mem_pair.1 h with rfl | rfl
  · exact ⟨0, by decide, rfl⟩
  · exact ⟨1, by decide, rfl⟩

theorem isNormal_write (h : IsShort way) : IsNormal (write 0 way) := by
  by_cases hne : way = []
  · subst hne
    exact .here
  · refine .short ?_
    rwa [segments_write_ways hne h.ways]

theorem isNormal_write_succ (hn : n ≤ 1) (h : IsPlace place) : IsNormal (write (n + 1) place) := by
  by_cases hne : place = []
  · subst hne
    refine .root ?_
    obtain rfl | rfl := Nat.le_one_iff_eq_zero_or_eq_one.1 hn <;> decide
  · have hsegments : segments (write 0 place) = place :=
      segments_write_ways hne h.isShort.ways
    rw [← hsegments, write_succ_segments]
    refine .below (ofList_replicate_mem hn) ?_
    rwa [hsegments]

/-- Every normal form has one of the forms. -/
theorem isNormal_normalize (path : String) : IsNormal (normalize path) := by
  have hle := lead_le path
  cases hlead : lead path with
  | zero =>
      unfold normalize
      rw [hlead]
      exact isNormal_write (isShort_collapse fun _ => slash_notMem_of_mem_segments)
  | succ n =>
      rw [normalize_eq_write_succ hlead]
      exact isNormal_write_succ (by omega) (isPlace_follow_segments path)

/-- What begins with a way has no slashes in front. -/
theorem lead_of_isWay (h : ∀ s ∈ segments path, IsWay s) : lead path = 0 := by
  obtain ⟨s, way, hsegments⟩ := List.exists_cons_of_ne_nil (segments_ne_nil path)
  obtain ⟨more, htext, -⟩ := toList_of_segments hsegments
  rw [hsegments] at h
  obtain ⟨c, cs, hchars, hc⟩ := (h s (List.mem_cons_self ..)).exists_cons
  unfold lead
  rw [htext, hchars]
  simp [hc]

/-- Segments that are short behind `.` are what remains. -/
theorem normalize_of_collapse (hlead : lead path = 0) {short : String}
    (h : IsShort (segments short)) (hcollapse : collapse false (segments path) =
      collapse false (segments short)) : normalize path = short := by
  unfold normalize
  rw [hlead]
  show write 0 (collapse false _) = _
  rw [hcollapse, h.collapse_eq, write_segments (ne_empty_of_isWay h.ways)]

theorem normalize_write_succ (hn : n ≤ 1) (h : IsPlace place) (hne : place ≠ []) :
    normalize (write (n + 1) place) = write (n + 1) place := by
  have hlead := lead_write_append hn h hne ""
  rw [String.append_empty] at hlead
  rw [normalize_eq_write_succ hlead, follow_segments_write_succ hn h hne]

/-- What has one of the forms is its own normal form. -/
theorem IsNormal.normalize_eq (h : IsNormal path) : normalize path = path := by
  cases h with
  | here => decide
  | short h => exact normalize_of_collapse (lead_of_isWay h.ways) h rfl
  | root hfront => rcases List.mem_pair.1 hfront with rfl | rfl <;> decide
  | below hfront h =>
      obtain ⟨n, hn, rfl⟩ := exists_eq_ofList_replicate hfront
      rw [← write_succ_segments]
      exact normalize_write_succ hn h (segments_ne_nil _)

theorem normalize_eq_self_iff : normalize path = path ↔ IsNormal path := by
  refine ⟨fun h => ?_, IsNormal.normalize_eq⟩
  rw [← h]
  exact isNormal_normalize path

/-- A normal form without a root is `.` or a short way. -/
theorem IsNormal.isShort (h : IsNormal path) (hrel : isAbsolute path = false) (hne : path ≠ ".") :
    IsShort (segments path) := by
  cases h with
  | here => exact absurd rfl hne
  | short h => exact h
  | root hfront => rcases List.mem_pair.1 hfront with rfl | rfl <;> cases hrel
  | below hfront h =>
      rcases List.mem_pair.1 hfront with rfl | rfl <;> simp [isAbsolute] at hrel

end ModuleAtlas.Path
