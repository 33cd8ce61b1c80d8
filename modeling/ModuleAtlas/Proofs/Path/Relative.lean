/-
Relative paths, read back.

# What they drop

A path as seen from a root leaves out what both places begin with
(`IsCommonFront`). It goes up once for each segment that only the root has,
and then down the segments that only the path has (`relative_eq_write`).

# Back again

The way up takes those segments of the root away again, and the way down
puts those of the path in their place (`follow_ups`). So, followed from the
root, a relative path leads where the path does, and no two places look
alike from one root (`relative_reads_back`).
-/
import ModuleAtlas.Proofs.Path.Normal

namespace ModuleAtlas.Path

variable {root path : String} {as bs common place up down : List String}

-- ========================================================= common fronts

/-- The longest list that both lists begin with. -/
structure IsCommonFront (common as bs : List String) : Prop where
  left : common <+: as
  right : common <+: bs
  longest : ∀ front, front <+: as → front <+: bs → front <+: common

/-- What is dropped from both lists is their longest common front. -/
theorem exists_isCommonFront (as bs : List String) :
    ∃ common, IsCommonFront common as bs ∧
      as = common ++ (dropCommon as bs).1 ∧ bs = common ++ (dropCommon as bs).2 := by
  fun_induction dropCommon as bs with
  | case1 as a bs ih =>
      obtain ⟨common, ⟨hleft, hright, hlongest⟩, has, hbs⟩ := ih
      refine ⟨a :: common, ⟨?_, ?_, ?_⟩, congrArg _ has, congrArg _ hbs⟩
      · exact (List.prefix_cons_inj a).2 hleft
      · exact (List.prefix_cons_inj a).2 hright
      · intro front hfa hfb
        cases front with
        | nil => exact List.nil_prefix
        | cons x front =>
            obtain ⟨rfl, hfas⟩ := List.cons_prefix_cons.1 hfa
            exact (List.prefix_cons_inj x).2 (hlongest front hfas (List.cons_prefix_cons.1 hfb).2)
  | case2 a as b bs hne =>
      refine ⟨[], ⟨List.nil_prefix, List.nil_prefix, ?_⟩, rfl, rfl⟩
      intro front hfa hfb
      cases front with
      | nil => exact List.nil_prefix
      | cons x front =>
          obtain ⟨rfl, -⟩ := List.cons_prefix_cons.1 hfa
          exact absurd (List.cons_prefix_cons.1 hfb).1 hne
  | case3 as bs hnot =>
      refine ⟨[], ⟨List.nil_prefix, List.nil_prefix, ?_⟩, rfl, rfl⟩
      intro front hfa hfb
      cases front with
      | nil => exact List.nil_prefix
      | cons x front =>
          obtain ⟨as', rfl⟩ := hfa
          obtain ⟨bs', rfl⟩ := hfb
          exact absurd rfl (hnot x (front ++ as') x (front ++ bs') rfl)

-- ============================================================ ups, downs

/-- A way up for each segment leads to where the segments begin. -/
theorem follow_ups (common up : List String) :
    follow (common ++ up) (List.replicate up.length "..") = common := by
  induction up using List.reverseRecOn with
  | nil => rw [List.append_nil]; rfl
  | append_singleton up s ih =>
      rw [List.length_append, List.length_singleton, List.replicate_succ, follow_cons, step_dots,
        ← List.append_assoc, List.dropLast_concat, ih]

/-- A way up and down again, from the place above to the one below. -/
theorem follow_ups_downs (hdown : IsPlace down) (common up : List String) :
    follow (common ++ up) (List.replicate up.length ".." ++ down) = common ++ down := by
  rw [follow_append, follow_ups, follow_of_isPlace hdown]

theorem isWay_of_mem_ups_downs (hdown : IsPlace down) (n : Nat) :
    ∀ s ∈ List.replicate n ".." ++ down, IsWay s := by
  intro s hs
  rcases List.mem_append.1 hs with hs | hs
  · exact .inr (List.eq_of_mem_replicate hs)
  · exact .inl (hdown s hs)

/-- As many ways up are read as are written. -/
theorem count_dots_ups_downs (hdown : IsPlace down) (n : Nat) :
    (segments (write 0 (List.replicate n ".." ++ down))).count ".." = n := by
  have hnone : down.count ".." = 0 :=
    List.count_eq_zero.2 fun hdots => (hdown ".." hdots).ne_dots rfl
  by_cases hne : List.replicate n ".." ++ down = []
  · obtain ⟨hups, rfl⟩ := List.append_eq_nil_iff.1 hne
    obtain rfl : n = 0 := (List.replicate_eq_nil_iff _).1 hups
    decide
  · rw [segments_write_ways hne (isWay_of_mem_ups_downs hdown n), List.count_append, hnone,
      List.count_replicate_self, Nat.add_zero]

-- ======================================================== relative paths

/-- The segments of an absolute path are those of its place. -/
theorem names_absolute (here : String) (h : lead path = 1) :
    (segments (absolute here path)).filter (· != "") = follow [] (segments path) := by
  have hplace := isPlace_follow_segments path
  have hall : ∀ s ∈ follow [] (segments path), (s != "") = true :=
    fun s hs => bne_iff_ne.2 (hplace s hs).ne_empty
  unfold absolute
  rw [join_of_isAbsolute (isAbsolute_of_lead h), normalize_eq_write h]
  by_cases hne : follow [] (segments path) = []
  · rw [hne]
    decide
  · rw [← String.ofList_toList (s := write 1 _), toList_write hne,
      segments_wayDown fun s hs => (hplace s hs).slash]
    exact List.filter_eq_self.2 hall

/-- A path as seen from a root: up out of what only the root has, and down
what only the path has. -/
theorem relative_eq_write (here : String) (hroot : lead root = 1) (hpath : lead path = 1) :
    ∃ common up down, IsCommonFront common (follow [] (segments root)) (follow [] (segments path)) ∧
      follow [] (segments root) = common ++ up ∧ follow [] (segments path) = common ++ down ∧
      relative here root path = write 0 (List.replicate up.length ".." ++ down) := by
  obtain ⟨common, hcommon, hup, hdown⟩ :=
    exists_isCommonFront (follow [] (segments root)) (follow [] (segments path))
  refine ⟨common, _, _, hcommon, hup, hdown, ?_⟩
  have hne : path ≠ "" := by
    rintro rfl
    exact absurd hpath (by decide)
  unfold relative
  rw [if_neg hne]
  dsimp only
  rw [names_absolute here hroot, names_absolute here hpath, List.map_const']

/-- It is no absolute path, and followed from the root it leads to the path. -/
theorem normalize_join_relative (here : String) (hroot : lead root = 1) (hpath : lead path = 1) :
    normalize (join root (relative here root path)) = normalize path := by
  obtain ⟨common, up, down, -, hup, hdown, hrel⟩ := relative_eq_write here hroot hpath
  have hplace : IsPlace down := fun s hs =>
    isPlace_follow_segments path s (by rw [hdown]; exact List.mem_append_right _ hs)
  have hways := isWay_of_mem_ups_downs hplace up.length
  have hjoin := absolute_eq_write hroot (isAbsolute_write_ways hways) (write_ne_empty _ _)
  unfold absolute at hjoin
  rw [hrel, hjoin, follow_segments_write_ways hways, hup, follow_ups_downs hplace, ← hdown,
    normalize_eq_write hpath]

/-- Followed from its root, a relative path leads where the path does, so two
places look different from the same root. It goes up as often as the root
has segments behind the longest common front, and nowhere else. -/
theorem relative_reads_back (here : String) (hroot : lead root = 1) (hpath : lead path = 1) :
    normalize (join root (relative here root path)) = normalize path ∧
    (∀ other, lead other = 1 → relative here root other = relative here root path →
      normalize other = normalize path) ∧
    ∃ common, IsCommonFront common (follow [] (segments root)) (follow [] (segments path)) ∧
      relative here root path = write 0
        (List.replicate ((follow [] (segments root)).length - common.length) ".." ++
          (follow [] (segments path)).drop common.length) ∧
      (segments (relative here root path)).count ".." =
        (follow [] (segments root)).length - common.length := by
  have hback := normalize_join_relative here hroot hpath
  refine ⟨hback, fun other hother hsame => ?_, ?_⟩
  · rw [← normalize_join_relative here hroot hother, hsame, hback]
  · obtain ⟨common, up, down, hcommon, hup, hdown, hrel⟩ := relative_eq_write here hroot hpath
    have hplace : IsPlace down := fun s hs =>
      isPlace_follow_segments path s (by rw [hdown]; exact List.mem_append_right _ hs)
    have hlength : (follow [] (segments root)).length - common.length = up.length := by
      rw [hup, List.length_append, Nat.add_sub_cancel_left]
    have hdrop : (follow [] (segments path)).drop common.length = down := by
      rw [hdown, List.drop_left]
    refine ⟨common, hcommon, ?_⟩
    rw [hlength, hdrop, hrel]
    exact ⟨rfl, count_dots_ups_downs hplace up.length⟩

/-- Beside the root and below its parent, where the names of both begin alike. -/
theorem relative_reads_back_beside :
    lead "/r/./app" = 1 ∧ lead "/r/lib/../apps/x.ts" = 1 ∧
      relative "/" "/r/./app" "/r/lib/../apps/x.ts" = "../apps/x.ts" ∧
      normalize (join "/r/./app" "../apps/x.ts") = "/r/apps/x.ts" := by
  have hroot : lead "/r/./app" = 1 := by decide
  have hpath : lead "/r/lib/../apps/x.ts" = 1 := by decide
  have hseen : relative "/" "/r/./app" "/r/lib/../apps/x.ts" = "../apps/x.ts" := by
    decide +kernel
  have hplace : normalize "/r/lib/../apps/x.ts" = "/r/apps/x.ts" := by decide +kernel
  obtain ⟨hback, -⟩ := relative_reads_back "/" hroot hpath
  rw [hseen, hplace] at hback
  exact ⟨hroot, hpath, hseen, hback⟩

end ModuleAtlas.Path
