/-
Folders that a project lies in.

# What a folder is

A folder is an absolute path in normal form that is no root. It spells a
place below a root, with one slash in front or two
(`IsFolder.exists_write`), and ends in a name (`IsFolder.named`). So what
is written behind it adds nothing to the slashes in front, and the slash
between the two is the only one there.

# Ways that stay inside

A way stays inside if no `..` on it is taken at the folder itself
(`Stays`). Such a way leads from below a folder to below it, and over the
same names wherever the folder is (`Stays.leads`). The normal form, the
directory and the extension of a path below a folder are then found by
looking behind the folder only (`IsFolder.normalize_eq`,
`Named.directory_eq`, `Named.splitExtension_append`).
-/
import ModuleAtlas.Proofs.Path.Below

namespace ModuleAtlas.Path

variable {dir name path : String} {place inside inside' way : List String} {n : Nat}

-- ======================================================= behind a slash

theorem append_slash (dir path : String) :
    dir ++ "/" ++ path = String.ofList (dir.toList ++ '/' :: path.toList) := by
  apply String.toList_injective
  simp

theorem segments_append_slash (dir path : String) :
    segments (dir ++ "/" ++ path) = segments dir ++ segments path := by
  rw [append_slash, segments_append_cons, String.ofList_toList, String.ofList_toList]

/-- The text of the way down from a folder to a place. -/
def down (place : List String) : String :=
  String.ofList (wayDown place)

theorem down_nil : down [] = "" := rfl

theorem down_concat (place : List String) (name : String) :
    down (place ++ [name]) = down place ++ "/" ++ name := by
  rw [append_slash, down, down, wayDown_concat, String.toList_ofList]

-- ======================================================= staying inside

/-- No `..` of the way is taken where there is nothing above. -/
def Stays (place : List String) : List String → Prop
  | [] => True
  | s :: way => (s = ".." → place ≠ []) ∧ Stays (step place s) way

instance Stays.decide (place : List String) : (way : List String) → Decidable (Stays place way)
  | [] => inferInstanceAs (Decidable True)
  | s :: way =>
    have := Stays.decide (step place s) way
    inferInstanceAs (Decidable ((s = ".." → place ≠ []) ∧ _))

/-- The way leads from the one place to the other, whatever is above. -/
def Leads (place way place' : List String) : Prop :=
  ∀ above, follow (above ++ place) way = above ++ place'

theorem step_append {s : String} (h : s = ".." → place ≠ []) (above : List String) :
    step (above ++ place) s = above ++ step place s := by
  unfold step
  split
  · rfl
  · split
    · next hdots => exact List.dropLast_append_of_ne_nil (h hdots)
    · rw [List.append_assoc]

theorem Stays.leads (h : Stays place way) : Leads place way (follow place way) := by
  intro above
  induction way generalizing place with
  | nil => rfl
  | cons s way ih =>
      rw [follow_cons, step_append h.1, ih h.2]
      rfl

-- a way that is only carried along is not to be cut into segments
attribute [irreducible] Stays

-- ========================================================== named paths

/-- The path ends in a slash and a name. -/
def Named (path : String) : Prop :=
  ∃ before name, path.toList = before ++ '/' :: name ∧ name ≠ [] ∧ '/' ∉ name

namespace Named

theorem append (h : Named path) (front : String) : Named (front ++ path) := by
  obtain ⟨before, name, hchars, hne, hname⟩ := h
  refine ⟨front.toList ++ before, name, ?_, hne, hname⟩
  rw [String.toList_append, hchars, List.append_assoc]

theorem ne_empty (h : Named path) : path ≠ "" := by
  obtain ⟨before, name, hchars, -, -⟩ := h
  rintro rfl
  simp at hchars

theorem getLast?_ne (h : Named path) : path.toList.getLast? ≠ some '/' := by
  obtain ⟨before, name, hchars, hne, hname⟩ := h
  rw [hchars, List.append_cons]
  exact getLast?_append_name hne hname _

theorem join_eq {more : String} (h : Named path) (hrel : isAbsolute more = false) :
    join path more = path ++ "/" ++ more :=
  join_of_getLast? h.ne_empty h.getLast?_ne hrel

/-- Behind a named path, the last name is all that is no directory. -/
theorem directory_eq (h : Named path) (hname : '/' ∉ name.toList) :
    directory (path ++ "/" ++ name) = path := by
  have hne := mt String.toList_eq_nil_iff.1 h.ne_empty
  rw [append_slash, directory_append_name hne h.getLast?_ne hname, String.ofList_toList]

/-- An extension is looked for behind the last slash only. -/
theorem splitExtension_append (h : Named path) (front : String) :
    splitExtension (front ++ path) =
      (front ++ (splitExtension path).1, (splitExtension path).2) := by
  obtain ⟨before, name, hchars, -, hname⟩ := h
  have hfront : (front ++ path).toList = (front.toList ++ before) ++ '/' :: name := by
    rw [String.toList_append, hchars, List.append_assoc]
  unfold splitExtension
  rw [hfront, hchars, Text.aroundLast_append hname, Text.aroundLast_append hname]
  dsimp only
  cases Text.aroundLast '.' name with
  | none => rfl
  | some parts =>
      dsimp only
      split
      · rfl
      · simp only [List.append_assoc, String.ofList_append, String.ofList_toList]

end Named

/-- The way down to a place ends in its last name. -/
theorem named_down (h : IsPlace place) (hne : place ≠ []) : Named (down place) := by
  obtain ⟨outer, s, rfl⟩ : ∃ outer s, place = outer ++ [s] :=
    ⟨_, _, (List.dropLast_concat_getLast hne).symm⟩
  have hs := h s (by simp)
  refine ⟨(down outer).toList, s.toList, ?_, mt String.toList_eq_nil_iff.1 hs.ne_empty, hs.slash⟩
  rw [down_concat, append_slash, String.toList_ofList]

-- ============================================================== folders

/-- An absolute path in normal form, other than a root. -/
structure IsFolder (dir : String) : Prop where
  absolute : isAbsolute dir = true
  normal : normalize dir = dir
  ne_root : dir ≠ "/"
  ne_roots : dir ≠ "//"

theorem write_append_down (hne : place ≠ []) (n : Nat) (inside : List String) :
    write (n + 1) place ++ down inside = write (n + 1) (place ++ inside) := by
  apply String.toList_injective
  rw [String.toList_append, toList_write_succ hne, toList_write_succ (by simp [hne])]
  simp [down, wayDown]

theorem named_write (h : IsPlace place) (hne : place ≠ []) (n : Nat) :
    Named (write (n + 1) place) := by
  have htext : write (n + 1) place = String.ofList (List.replicate n '/') ++ down place := by
    apply String.toList_injective
    rw [toList_write_succ hne]
    simp [down]
  rw [htext]
  exact (named_down h hne).append _

/-- No more slashes than two count. -/
theorem lead_le (path : String) : lead path ≤ 2 := by
  unfold lead
  split <;> decide

/-- Where there is a name, nothing behind it adds to the slashes in front. -/
theorem lead_write_append (hn : n ≤ 1) (h : IsPlace place) (hne : place ≠ [])
    (more : String) : lead (write (n + 1) place ++ more) = n + 1 := by
  obtain ⟨s, rest, rfl⟩ := List.exists_cons_of_ne_nil hne
  obtain ⟨c, cs, hchars, hc⟩ := IsWay.exists_cons (.inl (h s (List.mem_cons_self ..)))
  unfold lead
  rw [String.toList_append, toList_write_succ hne]
  obtain rfl | rfl := Nat.le_one_iff_eq_zero_or_eq_one.1 hn <;>
    simp [wayDown, hchars, hc]

theorem follow_segments_write_succ (hn : n ≤ 1) (h : IsPlace place) (hne : place ≠ []) :
    follow [] (segments (write (n + 1) place)) = place := by
  obtain rfl | rfl := Nat.le_one_iff_eq_zero_or_eq_one.1 hn
  · exact follow_segments_write h
  · have htext : write 2 place = "" ++ "/" ++ write 1 place := by
      apply String.toList_injective
      rw [append_slash, String.toList_ofList, toList_write_succ hne, toList_write hne]
      rfl
    rw [htext, segments_append_slash]
    exact follow_segments_write h

/-- What is written behind a place is followed from there. -/
theorem normalize_write_append (hn : n ≤ 1) (h : IsPlace place) (hne : place ≠ [])
    (path : String) :
    normalize (write (n + 1) place ++ "/" ++ path) =
      write (n + 1) (follow place (segments path)) := by
  have hlead : lead (write (n + 1) place ++ "/" ++ path) = n + 1 := by
    rw [String.append_assoc, lead_write_append hn h hne]
  rw [normalize_eq_write_succ hlead, segments_append_slash, follow_append,
    follow_segments_write_succ hn h hne]

namespace IsFolder

/-- A folder spells a place below a root. -/
theorem exists_write (h : IsFolder dir) : ∃ n ≤ 1, ∃ place,
    IsPlace place ∧ place ≠ [] ∧ dir = write (n + 1) place := by
  obtain ⟨n, hn⟩ := Nat.exists_eq_succ_of_ne_zero (lead_ne_zero h.absolute)
  have hle : n ≤ 1 := by
    have htwo := lead_le dir
    omega
  have hdir : dir = write (n + 1) (follow [] (segments dir)) := by
    rw [← normalize_eq_write_succ hn, h.normal]
  refine ⟨n, hle, _, isPlace_follow_segments dir, fun hnil => ?_, hdir⟩
  rw [hnil] at hdir
  obtain rfl | rfl := Nat.le_one_iff_eq_zero_or_eq_one.1 hle
  · exact h.ne_root hdir
  · exact h.ne_roots hdir

/-- Below a folder, a way that stays inside leads where it does without
the folder. -/
theorem normalize_eq (h : IsFolder dir) (hinside : IsPlace inside)
    (hway : Leads inside (segments path) inside') :
    normalize (dir ++ down inside ++ "/" ++ path) = dir ++ down inside' := by
  obtain ⟨n, hn, place, hplace, hne, rfl⟩ := h.exists_write
  rw [write_append_down hne, normalize_write_append hn (hplace.append hinside) (by simp [hne]),
    hway place, write_append_down hne]

/-- A folder and what is below it end in names. -/
theorem named (h : IsFolder dir) (hinside : IsPlace inside) : Named (dir ++ down inside) := by
  obtain ⟨n, -, place, hplace, hne, rfl⟩ := h.exists_write
  rw [write_append_down hne]
  exact named_write (hplace.append hinside) (by simp [hne]) n

end IsFolder

end ModuleAtlas.Path
