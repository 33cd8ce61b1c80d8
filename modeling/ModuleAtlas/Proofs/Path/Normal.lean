/-
The normal form of a path.

It is written with what the path itself is written with, less some of it,
unless it is `.` (`normalize_eq_dot_or_sublist`). So it holds no character
that the path does not hold, and with a root it is no longer than the path.
Its segments are the names that remain then (`exists_segments_normalize`).
What is seen from an absolute directory is where its segments lead from
there (`absolute_eq_write`). Below such a directory it is the normal form of
the directory that changes, and the names stay behind it
(`normalize_below`).
-/
import Mathlib.Data.String.Basic
import ModuleAtlas.Proofs.Path.Below

namespace ModuleAtlas.Path

variable {dir path s : String} {place way : List String} {n : Nat}

-- ============================================================ the text

/-- The slashes that count stand in front. -/
theorem exists_toList_of_lead (path : String) :
    ∃ rest, path.toList = List.replicate (lead path) '/' ++ rest := by
  unfold lead
  split
  · next h => exact ⟨_, h⟩
  · next h => exact ⟨_, h⟩
  · next h => exact ⟨_, h⟩
  · exact ⟨path.toList, rfl⟩

theorem segments_slashes (n : Nat) (cs : List Char) :
    segments (String.ofList (List.replicate n '/' ++ cs)) =
      List.replicate n "" ++ segments (String.ofList cs) := by
  induction n with
  | zero => rfl
  | succ n ih =>
      rw [List.replicate_succ, List.cons_append, List.replicate_succ, List.cons_append, ← ih]
      exact segments_append_cons [] _

theorem collapse_replicate (rooted : Bool) (n : Nat) (way : List String) :
    collapse rooted (List.replicate n "" ++ way) = collapse rooted way := by
  induction n with
  | zero => rfl
  | succ n ih => exact ih

-- ============================================================== less of it

theorem join_sublist {pieces more : List (List Char)} (h : pieces.Sublist more) :
    (Text.join '/' pieces).Sublist (Text.join '/' more) := by
  induction h with
  | slnil => exact .slnil
  | @cons pieces more piece h ih =>
      cases more with
      | nil =>
          obtain rfl := List.sublist_nil.1 h
          exact List.nil_sublist _
      | cons next more =>
          exact ih.trans ((List.sublist_cons_self ..).trans (List.sublist_append_right ..))
  | @cons_cons pieces more piece h ih =>
      cases more with
      | nil =>
          obtain rfl := List.sublist_nil.1 h
          exact .refl _
      | cons next more =>
          cases pieces with
          | nil => exact List.sublist_append_left ..
          | cons p pieces => exact (List.Sublist.refl _).append (ih.cons_cons _)

theorem descend_sublist (rooted : Bool) (entered : List String) (s : String) :
    (descend rooted entered s).Sublist (s :: entered) := by
  unfold descend
  split
  · exact List.sublist_cons_self ..
  · split
    · next hdots =>
      subst hdots
      cases entered with
      | nil =>
          cases rooted with
          | true => exact List.nil_sublist _
          | false => exact .refl _
      | cons last outer =>
          dsimp only
          split
          · exact .refl _
          · exact (List.sublist_cons_self ..).trans (List.sublist_cons_self ..)
    · exact .refl _

/-- All that remains of a way stands on it, in the same order. -/
theorem collapse_sublist (rooted : Bool) (way : List String) :
    (collapse rooted way).Sublist way := by
  induction way using List.reverseRecOn with
  | nil => exact .slnil
  | append_singleton way s ih =>
      have hstep := (descend_sublist rooted (way.foldl (descend rooted) []) s).reverse
      unfold collapse at ih ⊢
      rw [List.foldl_append, List.foldl_cons, List.foldl_nil]
      rw [List.reverse_cons] at hstep
      exact hstep.trans (ih.append (.refl _))

/-- The normal form is the path less some of its text, unless nothing is
left to write. -/
theorem normalize_eq_dot_or_sublist (path : String) :
    normalize path = "." ∨ (normalize path).toList.Sublist path.toList := by
  obtain ⟨rest, htext⟩ := exists_toList_of_lead path
  have hsegments : segments path =
      List.replicate (lead path) "" ++ segments (String.ofList rest) := by
    rw [← segments_slashes, ← htext, String.ofList_toList]
  unfold normalize write
  dsimp only
  rw [hsegments, collapse_replicate]
  split
  · exact .inl rfl
  · right
    have hless := join_sublist
      ((collapse_sublist (lead path != 0) (segments (String.ofList rest))).map String.toList)
    rw [join_segments, String.toList_ofList] at hless
    rw [String.toList_ofList, htext]
    exact (List.Sublist.refl _).append hless

/-- No character comes in, but for the dot of `.`. -/
theorem mem_of_mem_normalize {c : Char} (hdot : c ≠ '.') (h : c ∈ (normalize path).toList) :
    c ∈ path.toList := by
  rcases normalize_eq_dot_or_sublist path with heq | hless
  · rw [heq] at h
    exact absurd (List.mem_singleton.1 h) hdot
  · exact hless.subset h

theorem isAbsolute_normalize_of_isAbsolute (h : isAbsolute path = true) :
    isAbsolute (normalize path) = true := by
  obtain ⟨n, hn⟩ := Nat.exists_eq_succ_of_ne_zero (lead_ne_zero h)
  rw [normalize_eq_write_succ hn]
  exact isAbsolute_write n _

/-- With a root, there is always something to write. -/
theorem toList_normalize_sublist (h : isAbsolute path = true) :
    (normalize path).toList.Sublist path.toList := by
  refine (normalize_eq_dot_or_sublist path).resolve_left fun heq => ?_
  have habsolute := isAbsolute_normalize_of_isAbsolute h
  rw [heq] at habsolute
  exact absurd habsolute (by decide)

/-- So it is no longer. -/
theorem utf8ByteSize_normalize_le (h : isAbsolute path = true) :
    (normalize path).utf8ByteSize ≤ path.utf8ByteSize := by
  have hsize : ∀ s : String, s.utf8ByteSize = String.utf8Len s.toList := by
    intro s
    rw [← String.utf8ByteSize_ofList, String.ofList_toList]
  rw [hsize, hsize]
  exact String.utf8Len_le_of_sublist (toList_normalize_sublist h)

-- ========================================================= its segments

/-- The segments of the normal form are those that remain, behind empty
ones. -/
theorem exists_segments_normalize (h : isAbsolute path = true) :
    ∃ n, segments (normalize path) =
      List.replicate n "" ++ follow [] (segments path) := by
  obtain ⟨n, hn⟩ := Nat.exists_eq_succ_of_ne_zero (lead_ne_zero h)
  have hplace := isPlace_follow_segments path
  have htext : normalize path = String.ofList (List.replicate (n + 1) '/' ++
      Text.join '/' ((follow [] (segments path)).map String.toList)) := by
    rw [normalize_eq_write_succ hn, ← toList_write_lead, String.ofList_toList]
  rw [htext, segments_slashes]
  by_cases hne : follow [] (segments path) = []
  · refine ⟨n + 2, ?_⟩
    rw [hne, List.append_nil]
    exact List.replicate_succ'.symm
  · refine ⟨n + 1, ?_⟩
    have hnames := split_join_names (fun s hs => (hplace s hs).slash) hne
    unfold segments at hnames ⊢
    rw [String.toList_ofList, hnames, List.map_map]
    simp [Function.comp_def]

-- ================================================================ below

theorem isAbsolute_located {here : String} (h : isAbsolute here = true) (path : String) :
    isAbsolute (located here path) = true := by
  have hjoin : isAbsolute (join here path) = true := by
    cases hpath : isAbsolute path with
    | true => rwa [join_of_isAbsolute hpath]
    | false => rwa [isAbsolute_join hpath]
  obtain ⟨n, hn⟩ := Nat.exists_eq_succ_of_ne_zero (lead_ne_zero hjoin)
  unfold located plain
  rw [hn]
  exact isAbsolute_write n _

theorem isAbsolute_below (h : isAbsolute dir = true) (hway : IsPlace way) :
    isAbsolute (below dir way) = true := by
  induction way generalizing dir with
  | nil => exact h
  | cons name way ih =>
      obtain ⟨hname, hway⟩ := List.forall_mem_cons.1 hway
      exact ih ((isAbsolute_join hname.isAbsolute dir).trans h) hway

theorem join_write_succ (h : IsPlace place) (hname : IsSegment s) (n : Nat) :
    join (write (n + 1) place) s = write (n + 1) (place ++ [s]) := by
  apply String.toList_injective
  rw [toList_join hname.isAbsolute]
  induction place using List.reverseRecOn with
  | nil =>
      rw [toList_write_lead, toList_write_lead]
      unfold opened
      rw [if_pos (.inr (by simp [Text.join, List.getLast?_replicate]))]
      simp [Text.join]
  | append_singleton outer last =>
      have hlast : last.toList ≠ [] := mt String.toList_eq_nil_iff.1 (h last (by simp)).ne_empty
      rw [toList_write_succ (by simp), toList_write_succ (by simp), wayDown_concat,
        wayDown_concat, wayDown_concat, List.append_cons, ← List.append_assoc,
        opened_append _ hlast, opened_of_isSegment (h last (by simp))]
      simp

theorem below_write (h : IsPlace place) (hway : IsPlace way) (n : Nat) :
    below (write (n + 1) place) way = write (n + 1) (place ++ way) := by
  induction way generalizing place with
  | nil => rw [List.append_nil]; rfl
  | cons name way ih =>
      obtain ⟨hname, hway⟩ := List.forall_mem_cons.1 hway
      rw [below_cons, join_write_succ h hname, ih (h.concat hname) hway, List.append_assoc]
      rfl

/-- What is written behind a directory adds nothing to the slashes in
front, unless it begins with one. -/
theorem lead_of_opened {c : Char} {cs : List Char} (hc : c ≠ '/')
    (h : path.toList = opened dir.toList ++ c :: cs) : lead path = lead dir := by
  have hopened : ∀ s, ∃ more, opened s = s ++ more := by
    intro s
    unfold opened
    split
    · exact ⟨[], (List.append_nil _).symm⟩
    · exact ⟨['/'], rfl⟩
  unfold lead
  rw [h]
  rcases dir.toList with _ | ⟨a, _ | ⟨b, _ | ⟨d, ds⟩⟩⟩
  · simp [opened, hc]
  · by_cases ha : a = '/' <;> simp [opened, ha, hc]
  · by_cases ha : a = '/' <;> by_cases hb : b = '/' <;> simp [opened, ha, hb, hc]
  · obtain ⟨more, hmore⟩ := hopened (a :: b :: d :: ds)
    rw [hmore]
    by_cases ha : a = '/' <;> by_cases hb : b = '/' <;> by_cases hd : d = '/' <;>
      simp [ha, hb, hd]

theorem lead_below (hway : IsPlace way) (dir : String) : lead (below dir way) = lead dir := by
  by_cases hne : way = []
  · rw [hne]
    rfl
  obtain ⟨c, cs, htext, hc⟩ := exists_cons_below hway hne dir
  exact lead_of_opened hc htext

/-- A relative path as seen from a directory is where its segments lead from
there. -/
theorem absolute_eq_write (hroot : lead dir = 1) (hrel : isAbsolute path = false)
    (hne : path ≠ "") :
    absolute dir path = write 1 (follow (follow [] (segments dir)) (segments path)) := by
  have htext := toList_join hrel dir
  obtain ⟨c, cs, hchars⟩ := List.exists_cons_of_ne_nil (mt String.toList_eq_nil_iff.1 hne)
  have hc : c ≠ '/' := by
    unfold isAbsolute at hrel
    rw [hchars] at hrel
    simpa using hrel
  have hlead : lead (join dir path) = 1 :=
    (lead_of_opened hc (htext.trans (congrArg _ hchars))).trans hroot
  have hdir : dir ≠ "" := by
    rintro rfl
    exact absurd hroot (by decide)
  obtain ⟨front, hopened, hfront⟩ := exists_opened hdir
  have hplace : follow [] (segments dir) = follow [] (segments (String.ofList front)) := by
    rcases hfront with hfront | hfront
    · rw [hfront]
    · rw [hfront, follow_append]
      rfl
  have hsegments : segments (join dir path) =
      segments (String.ofList front) ++ segments path := by
    rw [← String.ofList_toList (s := join dir path), htext, hopened, List.append_assoc,
      List.singleton_append, segments_append_cons, String.ofList_toList]
  unfold absolute
  rw [normalize_eq_write hlead, hsegments, follow_append, hplace]

/-- Below an absolute directory, the names stay behind its normal form. -/
theorem normalize_below (h : isAbsolute dir = true) (hway : IsPlace way) :
    normalize (below dir way) = below (normalize dir) way := by
  by_cases hne : way = []
  · rw [hne]
    rfl
  obtain ⟨n, hn⟩ := Nat.exists_eq_succ_of_ne_zero (lead_ne_zero h)
  obtain ⟨front, hdir, hsegments⟩ := exists_segments_below dir
  have hfront : follow [] (segments dir) = follow [] front := by
    rcases hdir with hdir | hdir
    · rw [hdir]
    · rw [hdir, follow_append]
      rfl
  rw [normalize_eq_write_succ ((lead_below hway dir).trans hn), normalize_eq_write_succ hn,
    below_write (isPlace_follow_segments dir) hway, hsegments way hway hne, follow_append,
    follow_of_isPlace hway, hfront]

end ModuleAtlas.Path
