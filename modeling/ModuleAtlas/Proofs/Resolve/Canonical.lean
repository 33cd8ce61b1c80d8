/-
The normal form of a specifier.

# Canonical specifiers

A specifier is canonical if it has no backslash and is a path in normal
form, or `./` and names of which the first does not begin with a dot
(`IsCanonical`). The normal form of every specifier is canonical, and what
is canonical is its own normal form (`normalize_eq_self_iff`).

# The same place

From every directory the normal form of a relative specifier leads where
the specifier does. It need not be relative, though. It always begins with
a dot (`head?_normalize`), since `./` is put before any that does not, but
before no other. So it is relative unless it is `.` or `..` or a way down
that begins with the name of a hidden file (`relative_iff_of_head`).
-/
import ModuleAtlas.Proofs.Path.Form
import ModuleAtlas.Proofs.Resolve.Ranking

namespace ModuleAtlas.Specifier

open ModuleAtlas.Path (IsNormal IsPlace follow lead segments)

variable {s rest : String}

-- ============================================================== slashes

theorem slashed_of_notMem (h : '\\' ∉ s.toList) : slashed s = s := by
  have hsame : ∀ c ∈ s.toList, (if c = '\\' then '/' else c) = c := by
    intro c hc
    rw [if_neg]
    rintro rfl
    exact h hc
  unfold slashed
  rw [List.map_congr_left hsame, List.map_id', String.ofList_toList]

theorem slashed_append (s t : String) : slashed (s ++ t) = slashed s ++ slashed t := by
  apply String.toList_injective
  simp [slashed]

theorem backslash_notMem_slashed (s : String) : '\\' ∉ (slashed s).toList := by
  unfold slashed
  rw [String.toList_ofList, List.mem_map]
  rintro ⟨c, -, hc⟩
  split at hc
  · exact absurd hc (by decide)
  · next hne => exact hne hc

theorem segments_dot_slash (rest : String) : segments ("./" ++ rest) = "." :: segments rest :=
  Path.segments_append_slash "." rest

theorem segments_dots_slash (rest : String) : segments ("../" ++ rest) = ".." :: segments rest :=
  Path.segments_append_slash ".." rest

-- ======================================================= canonical forms

/-- The forms of a specifier in normal form: a path in normal form, or `./` and
a way down that begins with no dot. -/
inductive IsCanonical : (s : String) → Prop
  | path {s : String} : IsNormal s → '\\' ∉ s.toList → IsCanonical s
  | beside {rest : String} :
      IsPlace (segments rest) → rest.toList.head? ≠ some '.' → '\\' ∉ rest.toList →
      IsCanonical ("./" ++ rest)

theorem IsCanonical.backslash (h : IsCanonical s) : '\\' ∉ s.toList := by
  cases h with
  | path _ hback => exact hback
  | beside _ _ hback => simpa using hback

/-- A relative path in normal form that begins with no dot leads down all
along. -/
theorem isPlace_of_head (h : IsNormal s) (hrel : Path.isAbsolute s = false)
    (hhead : s.toList.head? ≠ some '.') : IsPlace (segments s) := by
  have hshort := h.isShort hrel (by rintro rfl; exact hhead rfl)
  obtain ⟨first, way, hsegments⟩ := List.exists_cons_of_ne_nil (Path.segments_ne_nil s)
  obtain ⟨more, htext, -⟩ := Path.toList_of_segments hsegments
  rw [hsegments] at hshort ⊢
  refine hshort.isPlace ?_
  rintro rfl
  rw [htext] at hhead
  exact hhead rfl

/-- Every normal form is canonical. -/
theorem isCanonical_normalize (s : String) : IsCanonical (normalize s) := by
  have hnormal := Path.isNormal_normalize (slashed s)
  have hback : '\\' ∉ (Path.normalize (slashed s)).toList := fun hmem =>
    backslash_notMem_slashed s (Path.mem_of_mem_normalize (by decide) hmem)
  rcases normalize_cases s with ⟨heq, ⟨rest, hrest⟩, hhead⟩ | ⟨heq, -⟩
  · rw [heq]
    have hlead : lead (slashed s) = 0 := by simp [hrest, lead]
    exact .beside (isPlace_of_head hnormal (Path.isAbsolute_normalize hlead) hhead) hhead hback
  · rw [heq]
    exact .path hnormal hback

/-- What is canonical is its own normal form. -/
theorem IsCanonical.normalize_eq (h : IsCanonical s) : normalize s = s := by
  have hslashed := slashed_of_notMem h.backslash
  have hcases := normalize_cases s
  rw [hslashed] at hcases
  cases h with
  | path hnormal _ =>
      rw [hnormal.normalize_eq] at hcases
      rcases hcases with ⟨-, ⟨rest, hrest⟩, hhead⟩ | ⟨heq, -⟩
      · exact absurd (by simp [hrest]) hhead
      · exact heq
  | @beside rest hplace hhead _ =>
      have hpath : Path.normalize ("./" ++ rest) = rest :=
        Path.normalize_of_collapse (by simp [lead]) hplace.isShort
          (by rw [segments_dot_slash]; rfl)
      rw [hpath] at hcases
      rcases hcases with ⟨heq, -⟩ | ⟨-, hdot⟩
      · exact heq
      · exact absurd (hdot rest rfl) hhead

theorem normalize_eq_self_iff : normalize s = s ↔ IsCanonical s := by
  refine ⟨fun h => ?_, IsCanonical.normalize_eq⟩
  rw [← h]
  exact isCanonical_normalize s

-- ======================================================= still relative

/-- A name that begins with a dot, as those of hidden files do. -/
def IsHidden (name : String) : Prop :=
  name.toList.head? = some '.' ∧ name ≠ "." ∧ name ≠ ".."

/-- Where a way leads that goes up first, the last name of the directory that
it is followed from does not show. So its normal form is no way down. -/
theorem not_isPlace_normalize (rest : String) :
    ¬ IsPlace (segments (normalize ("../" ++ rest))) := by
  intro hplace
  have hrel : Relative ("../" ++ rest) := ⟨rest, .inr rfl⟩
  have hslashed : slashed ("../" ++ rest) = "../" ++ slashed rest := slashed_append "../" rest
  have hfollow : ∀ name, name :: segments (normalize ("../" ++ rest)) =
      follow [] (segments (slashed rest)) := by
    intro name
    have hdown := Path.follow_of_isPlace hplace [name]
    rw [(follow_normalize hrel [name]).2, hslashed, segments_dots_slash, Path.follow_cons,
      Path.step_dots, List.dropLast_singleton, List.singleton_append] at hdown
    exact hdown.symm
  have hname := (List.cons.inj ((hfollow "a").trans (hfollow "b").symm)).1
  exact absurd hname (by decide)

/-- The normal form of a relative specifier begins with a dot. -/
theorem head?_normalize (h : Relative s) : (normalize s).toList.head? = some '.' := by
  obtain ⟨hrel, -⟩ := follow_normalize h []
  rcases normalize_cases s with ⟨heq, -, -⟩ | ⟨heq, hdot⟩
  · rw [heq]
    simp
  · obtain ⟨rest, rfl | rfl⟩ := h
    · rw [heq]
      exact hdot (slashed rest) (slashed_append "./" rest)
    · by_contra hhead
      refine not_isPlace_normalize rest ?_
      have hnormal := Path.isNormal_normalize (slashed ("../" ++ rest))
      rw [← heq] at hnormal
      exact isPlace_of_head hnormal hrel hhead

theorem relative_iff :
    Relative s ↔ ∃ first way, segments s = first :: way ∧ way ≠ [] ∧
      (first = "." ∨ first = "..") := by
  constructor
  · rintro ⟨rest, rfl | rfl⟩
    · exact ⟨".", _, segments_dot_slash rest, Path.segments_ne_nil rest, .inl rfl⟩
    · exact ⟨"..", _, segments_dots_slash rest, Path.segments_ne_nil rest, .inr rfl⟩
  · rintro ⟨first, way, hsegments, hne, hfirst⟩
    obtain ⟨more, htext, hhead⟩ := Path.toList_of_segments hsegments
    rw [if_neg hne] at hhead
    obtain ⟨cs, hmore⟩ := List.head?_eq_some_iff.1 hhead
    refine ⟨String.ofList cs, ?_⟩
    rcases hfirst with rfl | rfl
    · left
      apply String.toList_injective
      rw [htext, hmore]
      simp
    · right
      apply String.toList_injective
      rw [htext, hmore]
      simp

/-- What begins with a dot is relative, unless it is that dot or two, or
begins with the name of a hidden file. -/
theorem relative_iff_of_head (h : s.toList.head? = some '.') :
    Relative s ↔ ¬ (s = "." ∨ s = ".." ∨
      ∃ first way, segments s = first :: way ∧ IsHidden first) := by
  obtain ⟨first, way, hsegments⟩ := List.exists_cons_of_ne_nil (Path.segments_ne_nil s)
  have hfirst := Path.head?_of_segments hsegments (by decide) h
  rw [relative_iff]
  constructor
  · rintro ⟨first', way', hsegments', hne, hdots⟩
    rintro (rfl | rfl | ⟨first'', way'', hsegments'', -, hdot, hdotdot⟩)
    · exact hne (List.cons.inj hsegments').2.symm
    · exact hne (List.cons.inj hsegments').2.symm
    · obtain ⟨rfl, -⟩ := List.cons.inj (hsegments'.symm.trans hsegments'')
      exact hdots.elim hdot hdotdot
  · intro hexcept
    simp only [not_or] at hexcept
    obtain ⟨hdot, hdotdot, hhidden⟩ := hexcept
    have hdots : first = "." ∨ first = ".." := by
      by_contra hname
      exact hhidden ⟨first, way, hsegments, hfirst, not_or.1 hname⟩
    refine ⟨first, way, hsegments, ?_, hdots⟩
    rintro rfl
    rcases hdots with rfl | rfl
    · exact hdot (Path.segments_injective hsegments)
    · exact hdotdot (Path.segments_injective hsegments)

-- ==================================================== the normal form

theorem slashed_ne_empty (h : Relative s) : slashed s ≠ "" := by
  obtain ⟨rest, rfl | rfl⟩ := h <;> simp [slashed]

theorem isAbsolute_slashed (h : Relative s) : Path.isAbsolute (slashed s) = false := by
  obtain ⟨rest, rfl | rfl⟩ := h <;> simp [slashed, Path.isAbsolute]

/-- The normal form of a specifier is canonical and its own normal form. If
the specifier is relative, both lead to the same place from every directory,
and the normal form is relative, too, unless it is `.` or `..` or begins
with the name of a hidden file. -/
theorem normalize_canonical (s : String) :
    normalize (normalize s) = normalize s ∧
    '\\' ∉ (normalize s).toList ∧ IsCanonical (normalize s) ∧
    (Relative s →
      (∀ dir, lead dir = 1 →
        follow (follow [] (segments dir)) (segments (normalize s)) =
            follow (follow [] (segments dir)) (segments (slashed s)) ∧
          Path.absolute dir (normalize s) = Path.absolute dir (slashed s)) ∧
      (Relative (normalize s) ↔
        ¬ (normalize s = "." ∨ normalize s = ".." ∨
          ∃ first way, segments (normalize s) = first :: way ∧ IsHidden first))) := by
  have hcanonical := isCanonical_normalize s
  refine ⟨hcanonical.normalize_eq, hcanonical.backslash, hcanonical, fun hrel => ⟨?_, ?_⟩⟩
  · intro dir hroot
    obtain ⟨hnormal, hfollow⟩ := follow_normalize hrel (follow [] (segments dir))
    have hne : normalize s ≠ "" := fun hempty => by
      have hhead := head?_normalize hrel
      simp [hempty] at hhead
    refine ⟨hfollow, ?_⟩
    rw [Path.absolute_eq_write hroot hnormal hne, hfollow,
      ← Path.absolute_eq_write hroot (isAbsolute_slashed hrel) (slashed_ne_empty hrel)]
  · exact relative_iff_of_head (head?_normalize hrel)

/-- Detours with slashes of both kinds, up out of the directory. -/
theorem normalize_canonical_detour :
    Relative "./src\\..//../lib/./x" ∧ lead "/r/app" = 1 ∧
      normalize "./src\\..//../lib/./x" = "../lib/x" ∧
      normalize "../lib/x" = "../lib/x" ∧ Relative "../lib/x" ∧
      Path.absolute "/r/app" "../lib/x" = "/r/lib/x" ∧
      Path.absolute "/r/app" "./src/..//../lib/./x" = "/r/lib/x" := by
  have hrel : Relative "./src\\..//../lib/./x" := ⟨"src\\..//../lib/./x", .inl (by decide)⟩
  have hroot : lead "/r/app" = 1 := by decide
  have hnormal : normalize "./src\\..//../lib/./x" = "../lib/x" := by decide
  have hslashed : slashed "./src\\..//../lib/./x" = "./src/..//../lib/./x" := by decide
  have htarget : Path.absolute "/r/app" "../lib/x" = "/r/lib/x" := by decide
  obtain ⟨hsame, -, -, hplace⟩ := normalize_canonical "./src\\..//../lib/./x"
  obtain ⟨hwalk, hstill⟩ := hplace hrel
  obtain ⟨-, habsolute⟩ := hwalk "/r/app" hroot
  rw [hnormal] at hsame habsolute hstill
  rw [hslashed, htarget] at habsolute
  refine ⟨hrel, hroot, hnormal, hsame, hstill.2 ?_, htarget, habsolute.symm⟩
  rintro (h | h | ⟨first, way, h, -, -, hdots⟩)
  · exact absurd h (by decide)
  · exact absurd h (by decide)
  · exact hdots (List.cons.inj h).1.symm

/-- A file beside may be hidden: without the `./` its name is no relative
specifier. -/
example : normalize "./.env" = ".env" ∧ isRelative ".env" = false := by decide

end ModuleAtlas.Specifier
