/-
Paths of what lies below a directory.

The names on the way down are written behind the directory, one after the
other (`below`). How the directory is spelled makes no difference to what
comes behind it: its own segments come first and then the names
(`exists_segments_below`), also in the normal form, where the names stay
what they are (`exists_normalize_below`). So two ways down that differ
lead to different paths, also in absolute form.
-/
import ModuleAtlas.Proofs.Path.Place

namespace ModuleAtlas.Path

variable {place way : List String} {dir name path : String}
    {s t : List Char}

-- ============================================================== joining

/-- The text of a directory with a slash for what follows, unless it ends
in one or is empty. -/
def opened (s : List Char) : List Char :=
  if s = [] ∨ s.getLast? = some '/' then s else s ++ ['/']

theorem opened_append (s : List Char) (ht : t ≠ []) :
    opened (s ++ t) = s ++ opened t := by
  have hlast : (s ++ t).getLast? = t.getLast? := by
    rw [List.getLast?_append, List.getLast?_eq_some_getLast ht, Option.some_or]
  have hne : ¬ s ++ t = [] := by simp [ht]
  unfold opened
  rw [hlast]
  simp only [hne, ht, false_or]
  split <;> simp

theorem opened_opened (s : List Char) : opened (opened s) = opened s := by
  by_cases h : s = [] ∨ s.getLast? = some '/'
  · have hs : opened s = s := if_pos h
    rw [hs, hs]
  · have hs : opened s = s ++ ['/'] := if_neg h
    rw [hs]
    exact if_pos (.inr (by simp))

theorem opened_of_isSegment (h : IsSegment name) :
    opened name.toList = name.toList ++ ['/'] := by
  obtain ⟨c, cs, hchars, -⟩ := IsWay.exists_cons (.inl h)
  unfold opened
  rw [if_neg]
  rw [not_or]
  exact ⟨by simp [hchars], fun hlast => h.slash (List.mem_of_getLast? hlast)⟩

/-- A relative path is written behind the directory. -/
theorem toList_join (h : isAbsolute path = false) (dir : String) :
    (join dir path).toList = opened dir.toList ++ path.toList := by
  unfold join opened
  rw [h, if_neg Bool.false_ne_true]
  simp only [String.toList_eq_nil_iff]
  split <;> simp

theorem IsSegment.isAbsolute (h : IsSegment name) : isAbsolute name = false := by
  obtain ⟨c, cs, hchars, hc⟩ := IsWay.exists_cons (.inl h)
  simp [Path.isAbsolute, hchars, hc]

theorem join_of_isAbsolute (h : isAbsolute path = true) (dir : String) :
    join dir path = path :=
  if_pos h

theorem isAbsolute_join (h : isAbsolute path = false) (dir : String) :
    isAbsolute (join dir path) = isAbsolute dir := by
  have htext := toList_join h dir
  unfold isAbsolute at h ⊢
  rw [htext]
  unfold opened
  cases hdir : dir.toList with
  | nil => simpa using h
  | cons c cs => split <;> simp

/-- What is seen from one directory and that from another is seen from the
one as it is seen from the other. -/
theorem join_join (here dir path : String) :
    join here (join dir path) = join (join here dir) path := by
  cases hpath : isAbsolute path with
  | true => simp only [join_of_isAbsolute hpath]
  | false =>
      have hjoin := isAbsolute_join hpath dir
      cases hdir : isAbsolute dir with
      | true =>
          rw [join_of_isAbsolute hdir, join_of_isAbsolute (hjoin.trans hdir)]
      | false =>
          apply String.toList_injective
          rw [toList_join (hjoin.trans hdir), toList_join hpath,
            toList_join hpath, toList_join hdir]
          by_cases hempty : dir.toList = []
          · rw [hempty, List.append_nil, opened_opened]
            rfl
          · rw [opened_append _ hempty, List.append_assoc]

-- ================================================================ below

/-- The path of what these names lead down to from `dir`. -/
def below (dir : String) (way : List String) : String :=
  way.foldl join dir

theorem below_cons (dir name : String) (way : List String) :
    below dir (name :: way) = below (join dir name) way := rfl

theorem join_below (here dir : String) (way : List String) :
    join here (below dir way) = below (join here dir) way := by
  induction way generalizing dir with
  | nil => rfl
  | cons name way ih => rw [below_cons, ih, join_join, below_cons]

/-- The names stand behind the directory with a slash between each two. -/
theorem toList_below (h : IsPlace way) (hne : way ≠ []) (dir : String) :
    (below dir way).toList =
      opened dir.toList ++ Text.join '/' (way.map String.toList) := by
  induction way generalizing dir with
  | nil => exact absurd rfl hne
  | cons name way ih =>
      obtain ⟨hname, hway⟩ := List.forall_mem_cons.1 h
      have hchars : name.toList ≠ [] := by
        simpa using hname.ne_empty
      rw [below_cons]
      cases way with
      | nil => simp [below, toList_join hname.isAbsolute, Text.join]
      | cons next way =>
          have hjoin : Text.join '/' ((name :: next :: way).map String.toList) =
              name.toList ++ '/' :: Text.join '/' ((next :: way).map String.toList) :=
            rfl
          rw [ih hway (List.cons_ne_nil _ _), toList_join hname.isAbsolute,
            opened_append _ hchars, opened_of_isSegment hname, hjoin]
          simp only [List.append_assoc, List.singleton_append]

/-- What was written with slashes between is read again. -/
theorem split_join_names {names : List String} (hslash : ∀ s ∈ names, '/' ∉ s.toList)
    (hne : names ≠ []) :
    Text.split '/' (Text.join '/' (names.map String.toList)) =
      names.map String.toList := by
  refine Text.split_join (by simpa using hne) fun piece hpiece => ?_
  obtain ⟨s, hs, rfl⟩ := List.mem_map.1 hpiece
  exact hslash s hs

/-- What is written behind a directory stands behind a slash. The directory
may end in that slash, and so in an empty segment. -/
theorem exists_opened (hne : dir ≠ "") :
    ∃ front, opened dir.toList = front ++ ['/'] ∧
      (segments dir = segments (String.ofList front) ∨
        segments dir = segments (String.ofList front) ++ [""]) := by
  by_cases hlast : dir.toList.getLast? = some '/'
  · obtain ⟨front, hfront⟩ := List.getLast?_eq_some_iff.1 hlast
    refine ⟨front, (if_pos (.inr hlast)).trans hfront, .inr ?_⟩
    rw [← String.ofList_toList (s := dir), hfront, segments_append_cons]
    rfl
  · have hempty := mt String.toList_eq_nil_iff.1 hne
    exact ⟨dir.toList, if_neg (not_or.2 ⟨hempty, hlast⟩), .inl (by rw [String.ofList_toList])⟩

/-- The segments of the directory come first, without the empty one that it
may end in, and then the names. -/
theorem exists_segments_below (dir : String) :
    ∃ front, (segments dir = front ∨ segments dir = front ++ [""]) ∧
      ∀ way, IsPlace way → way ≠ [] → segments (below dir way) = front ++ way := by
  have hnames : ∀ way, IsPlace way → way ≠ [] →
      segments (String.ofList (Text.join '/' (way.map String.toList))) = way := by
    intro way h hne
    unfold segments
    rw [String.toList_ofList, split_join_names (fun s hs => (h s hs).slash) hne,
      List.map_map]
    simp [Function.comp_def]
  have htext : ∀ way, IsPlace way → way ≠ [] → below dir way =
      String.ofList (opened dir.toList ++ Text.join '/' (way.map String.toList)) := by
    intro way h hne
    rw [← toList_below h hne, String.ofList_toList]
  by_cases hempty : dir = ""
  · subst hempty
    refine ⟨[], .inr (by decide), fun way h hne => ?_⟩
    rw [htext way h hne]
    exact hnames way h hne
  · obtain ⟨front, hopened, hdir⟩ := exists_opened hempty
    refine ⟨_, hdir, fun way h hne => ?_⟩
    rw [htext way h hne, hopened, List.append_assoc, List.singleton_append,
      segments_append_cons, hnames way h hne]

-- ========================================================= normal forms

/-- The leading slashes are those before the first other character. -/
theorem lead_eq_of_append {p q : String} {c d : Char} {cs ds : List Char}
    (hp : p.toList = s ++ c :: cs) (hq : q.toList = s ++ d :: ds)
    (hc : c ≠ '/') (hd : d ≠ '/') : lead p = lead q := by
  unfold lead
  rw [hp, hq]
  rcases s with _ | ⟨a, _ | ⟨b, _ | ⟨e, s⟩⟩⟩
  · simp [hc, hd]
  · by_cases ha : a = '/' <;> simp [ha, hc, hd]
  · by_cases ha : a = '/' <;> by_cases hb : b = '/' <;> simp [ha, hb, hc, hd]
  · by_cases ha : a = '/' <;> by_cases hb : b = '/' <;> by_cases he : e = '/' <;>
      simp [ha, hb, he]

theorem descend_of_isSegment (rooted : Bool) (entered : List String)
    (h : IsSegment name) : descend rooted entered name = name :: entered := by
  unfold descend
  rw [if_neg (not_or.2 ⟨h.ne_empty, h.ne_dot⟩), if_neg h.ne_dots]

/-- Names are entered, whatever was walked before. -/
theorem collapse_append (h : IsPlace way) (rooted : Bool) (front : List String) :
    collapse rooted (front ++ way) = collapse rooted front ++ way := by
  induction way using List.reverseRecOn with
  | nil => simp
  | append_singleton way name ih =>
      have hway : IsPlace way := fun s hs => h s (List.mem_append_left _ hs)
      rw [← List.append_assoc, ← List.append_assoc, ← ih hway]
      unfold collapse
      rw [List.foldl_append, List.foldl_cons, List.foldl_nil,
        descend_of_isSegment _ _ (h name (by simp)), List.reverse_cons]

theorem slash_notMem_of_mem_collapse {rooted : Bool} {front : List String}
    (hfront : ∀ s ∈ front, '/' ∉ s.toList) (h : name ∈ collapse rooted front) :
    '/' ∉ name.toList := by
  cases rooted with
  | false => exact (isWay_of_mem_collapse hfront h).slash
  | true =>
      rw [collapse_root front hfront] at h
      exact (isPlace_nil.follow hfront name h).slash

/-- What names are written behind begins with a name. -/
theorem exists_cons_below (h : IsPlace way) (hne : way ≠ []) (dir : String) :
    ∃ c cs, (below dir way).toList = opened dir.toList ++ c :: cs ∧ c ≠ '/' := by
  cases way with
  | nil => exact absurd rfl hne
  | cons name way =>
      obtain ⟨c, cs, hchars, hc⟩ :=
        IsWay.exists_cons (.inl (h name (List.mem_cons_self ..)))
      have htext := toList_below h hne dir
      cases way with
      | nil => exact ⟨c, cs, by simpa [Text.join, hchars] using htext, hc⟩
      | cons next way => exact ⟨c, _, by simpa [Text.join, hchars] using htext, hc⟩

/-- The normal form keeps the names, whatever becomes of the directory. -/
theorem exists_normalize_below (dir : String) :
    ∃ leading outer, (∀ s ∈ outer, '/' ∉ s.toList) ∧
      ∀ way, IsPlace way → way ≠ [] →
        normalize (below dir way) = write leading (outer ++ way) := by
  obtain ⟨front, hdir, hsegments⟩ := exists_segments_below dir
  have hfront : ∀ s ∈ front, '/' ∉ s.toList := by
    intro s hs
    have hmem : s ∈ segments dir := by
      rcases hdir with hdir | hdir <;> simp [hdir, hs]
    exact slash_notMem_of_mem_segments hmem
  have hone : IsPlace ["a"] := by
    intro s hs
    rw [List.mem_singleton.1 hs]
    exact ⟨by decide, by decide, by decide, by decide⟩
  obtain ⟨a, as, htext, ha⟩ := exists_cons_below hone (List.cons_ne_nil _ _) dir
  refine ⟨lead (below dir ["a"]), collapse (lead (below dir ["a"]) != 0) front,
    fun s => slash_notMem_of_mem_collapse hfront, fun way h hne => ?_⟩
  obtain ⟨c, cs, htext', hc⟩ := exists_cons_below h hne dir
  unfold normalize
  rw [lead_eq_of_append htext' htext hc ha, hsegments way h hne,
    collapse_append h]

-- ==================================================== differing names

/-- Where there is a name to write, it is written. -/
theorem toList_write_names {names : List String} (hslash : ∀ s ∈ names, '/' ∉ s.toList)
    (hname : ∃ s ∈ names, s ≠ "") (leading : Nat) :
    (write leading names).toList =
      List.replicate leading '/' ++ Text.join '/' (names.map String.toList) := by
  obtain ⟨s, hs, hne⟩ := hname
  unfold write
  rw [if_neg, String.toList_ofList]
  intro hempty
  have hjoin := (List.append_eq_nil_iff.1 (List.isEmpty_iff.1 hempty)).2
  have hpieces := split_join_names hslash (List.ne_nil_of_mem hs)
  have hmem : s.toList ∈ names.map String.toList := List.mem_map_of_mem hs
  rw [← hpieces, hjoin] at hmem
  exact hne (String.toList_eq_nil_iff.1 (List.mem_singleton.1 hmem))

theorem write_injective {leading : Nat} {xs ys : List String}
    (hxs : ∀ s ∈ xs, '/' ∉ s.toList) (hys : ∀ s ∈ ys, '/' ∉ s.toList)
    (hx : ∃ s ∈ xs, s ≠ "") (hy : ∃ s ∈ ys, s ≠ "")
    (h : write leading xs = write leading ys) : xs = ys := by
  have htext := congrArg String.toList h
  rw [toList_write_names hxs hx, toList_write_names hys hy] at htext
  have hsplit := congrArg (Text.split '/') (List.append_cancel_left htext)
  obtain ⟨x, hx, -⟩ := hx
  obtain ⟨y, hy, -⟩ := hy
  rw [split_join_names hxs (List.ne_nil_of_mem hx),
    split_join_names hys (List.ne_nil_of_mem hy)] at hsplit
  exact (List.map_inj_right fun _ _ hchars => String.toList_injective hchars).1 hsplit

/-- Different names lead to different places, also in absolute form. -/
theorem absolute_below_injective {here : String} {way' : List String}
    (h : IsPlace way) (hne : way ≠ []) (h' : IsPlace way') (hne' : way' ≠ [])
    (heq : absolute here (below dir way) = absolute here (below dir way')) :
    way = way' := by
  obtain ⟨leading, outer, houter, hnormal⟩ := exists_normalize_below (join here dir)
  have hread : ∀ way, IsPlace way → way ≠ [] →
      (∀ s ∈ outer ++ way, '/' ∉ s.toList) ∧ ∃ s ∈ outer ++ way, s ≠ "" := by
    intro way h hne
    constructor
    · intro s hs
      rcases List.mem_append.1 hs with hs | hs
      · exact houter s hs
      · exact (h s hs).slash
    · obtain ⟨s, hs⟩ := List.exists_mem_of_ne_nil way hne
      exact ⟨s, List.mem_append_right _ hs, (h s hs).ne_empty⟩
  unfold absolute at heq
  rw [join_below, join_below, hnormal way h hne, hnormal way' h' hne'] at heq
  obtain ⟨hslash, hsome⟩ := hread way h hne
  obtain ⟨hslash', hsome'⟩ := hread way' h' hne'
  exact List.append_cancel_left (write_injective hslash hslash' hsome hsome' heq)

end ModuleAtlas.Path
