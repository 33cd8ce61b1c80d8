/-
Paths whose normal form leads to the same place.

# Walks in parts

A walk that gets to the end of some segments goes on from there with
whatever stands behind them and the links it has left
(`exists_walk_append`). One that gets to the end of all of them has got
to the end of the first ones (`exists_walk_of_append`).

# Straight paths

For each `..`, the normal form takes back the name before it, whatever
that is. A walk leaves the directory that it has come to. If the name is
that of a directory, this is the same, and no link is lost by it. If it
is that of a link, the walk has come to a place elsewhere, and leaves
that. So the normal form of a path leads where the path does as long as
no link is taken back (`Straight`, `spot_normalize`).
-/
import ModuleAtlas.Proofs.FileTree.Proper
import ModuleAtlas.Proofs.Path.Normal

namespace ModuleAtlas.FileTree

variable {t : FileTree} {top e : Entry} {links : Nat}
    {trail trail' entries : List (String × Entry)} {name path : String}
    {way rest : List String}

-- ================================================================ parts

/-- What stands behind the segments is walked from where they lead. -/
theorem exists_walk_append (h : walk top links trail way = .ok ⟨trail', none⟩) :
    ∃ links', ∀ rest, walk top links trail (way ++ rest) = walk top links' trail' rest := by
  fun_induction walk top links trail way with
  | case1 links trail =>
      obtain rfl := (Spot.mk.inj (Except.ok.inj h)).1
      exact ⟨links, fun _ => rfl⟩
  | case2 links trail s way entries hdir hstay ih =>
      obtain ⟨links', hwalk⟩ := ih h
      exact ⟨links', fun rest => (walk_stay hdir hstay).trans (hwalk rest)⟩
  | case3 links trail way entries hdir hmoves ih =>
      obtain ⟨links', hwalk⟩ := ih h
      exact ⟨links', fun rest => (walk_up hdir).trans (hwalk rest)⟩
  | case8 trail s way entries hdir hmoves hdown hshort target hname links ih =>
      obtain ⟨links', hwalk⟩ := ih h
      rw [not_or] at hmoves
      refine ⟨links', fun rest => ?_⟩
      rw [← hwalk, List.append_assoc]
      exact walk_link hdir hmoves.1 hmoves.2 hdown (Nat.le_of_not_lt hshort) hname
  | case9 links trail s way entries hdir hmoves hdown hshort e hlink hname ih =>
      obtain ⟨links', hwalk⟩ := ih h
      exact ⟨links', fun rest =>
        (walk_enter hdir hmoves hdown hshort hname hlink).trans (hwalk rest)⟩
  | case4 | case5 | case6 | case7 | case10 => cases h

/-- The first segments lead somewhere if all of them do. -/
theorem exists_walk_of_append {spot : Spot} (hne : rest ≠ [])
    (h : walk top links trail (way ++ rest) = .ok spot) :
    ∃ trail', walk top links trail way = .ok ⟨trail', none⟩ := by
  fun_induction walk top links trail way with
  | case1 links trail => exact ⟨trail, rfl⟩
  | case2 links trail s way entries hdir hstay ih =>
      exact ih ((walk_stay hdir hstay).symm.trans h)
  | case3 links trail way entries hdir hmoves ih => exact ih ((walk_up hdir).symm.trans h)
  | case8 trail s way entries hdir hmoves hdown hshort target hname links ih =>
      rw [not_or] at hmoves
      refine ih ?_
      rw [List.append_assoc, ← h]
      exact (walk_link hdir hmoves.1 hmoves.2 hdown (Nat.le_of_not_lt hshort) hname).symm
  | case9 links trail s way entries hdir hmoves hdown hshort e hlink hname ih =>
      exact ih ((walk_enter hdir hmoves hdown hshort hname hlink).symm.trans h)
  -- what stops a walk stops it in front of more segments as well, and a name
  -- that is missing may only be the last
  | case4 links trail s way entries hdir hmoves hdown hlong =>
      rw [List.cons_append, walk, hdir] at h
      simp only [hmoves, hdown, hlong, if_true, if_false] at h
      cases h
  | case5 links trail s way entries hdir hmoves hdown hshort hname hempty =>
      rw [List.cons_append, walk, hdir] at h
      simp [hmoves, hdown, hshort, hname, hne] at h
  | case6 links trail s way entries hdir hmoves hdown hshort hname hmore =>
      rw [List.cons_append, walk, hdir] at h
      simp [hmoves, hdown, hshort, hname, hne] at h
  | case7 trail s way entries hdir hmoves hdown hshort target hname =>
      rw [List.cons_append, walk, hdir] at h
      simp only [hmoves, hdown, hshort, hname, if_false] at h
      cases h
  | case10 links trail s way hnodir =>
      obtain ⟨entries, hdir⟩ := exists_dir_of_walk_cons h
      exact absurd hdir (hnodir entries)

/-- Where names lead down to a file in the tree, a walk along them comes to
it, unless a name is too long. -/
theorem walk_down {content : Bytes} (links : Nat) (hway : Path.IsPlace way)
    (hlies : (entryAt top trail).under? way = some (.file content)) :
    walk top links trail way = .error .nameTooLong ∨
      ∃ trail', walk top links trail way = .ok ⟨trail', none⟩ ∧
        entryAt top trail' = .file content := by
  induction way generalizing trail with
  | nil =>
      refine .inr ⟨trail, by rw [walk], ?_⟩
      unfold Entry.under? at hlies
      exact Option.some.inj hlies
  | cons name way ih =>
      obtain ⟨hname, hway⟩ := List.forall_mem_cons.1 hway
      obtain ⟨entries, inner, hdir, hlookup, hinner⟩ := Entry.under?_cons_eq_some_iff.1 hlies
      have hlink : ∀ target, inner ≠ .link target := by
        rintro target rfl
        cases way <;> simp [Entry.under?] at hinner
      by_cases hlong : maxNameBytes < name.utf8ByteSize
      · exact .inl (walk_longName hdir hname.ne_empty hname.ne_dot hname.ne_dots hlong)
      · rw [walk_enter hdir (not_or.2 ⟨hname.ne_empty, hname.ne_dot⟩) hname.ne_dots hlong
          hlookup hlink]
        exact ih hway hinner

/-- The path of what lies below a directory leads to it. -/
theorem look_below {dir : String} {content : Bytes} (habsolute : Path.isAbsolute dir = true)
    (hdir : t.look dir = .ok (some e)) (hway : Path.IsPlace way) (hne : way ≠ [])
    (hlies : e.under? way = some (.file content))
    (hnul : (Path.below dir way).toList.contains '\x00' = false)
    (hrefuses : ¬ t.Refuses (Path.below dir way)) :
    t.look (Path.below dir way) = .ok (some (.file content)) := by
  have hbelow := Path.isAbsolute_below habsolute hway
  have hempty : Path.below dir way ≠ "" := by
    rintro heq
    rw [heq] at hbelow
    cases hbelow
  obtain ⟨trail, hspot, rfl⟩ := spot_of_look hdir
  obtain ⟨-, -, hwalk⟩ := walk_of_spot hspot
  rw [Path.join_of_isAbsolute habsolute] at hwalk
  obtain ⟨front, hsegments, hbehind⟩ := Path.exists_segments_below dir
  have hfront : walk t.top maxLinks [] front = .ok ⟨trail, none⟩ := by
    rcases hsegments with hsegments | hsegments
    · rwa [hsegments] at hwalk
    · rw [hsegments] at hwalk
      obtain ⟨trail', hwalk'⟩ := exists_walk_of_append (List.cons_ne_nil _ _) hwalk
      obtain ⟨links, hfrom⟩ := exists_walk_append hwalk'
      rw [hfrom] at hwalk
      obtain ⟨entries, hdir⟩ := exists_dir_of_walk_cons hwalk
      rw [walk_empty hdir, walk] at hwalk
      rw [hwalk', hwalk]
  obtain ⟨links, hfrom⟩ := exists_walk_append hfront
  rcases walk_down links hway hlies with hlong | ⟨trail', hdown, hfile⟩
  · refine absurd ⟨hempty, hnul, .inr ?_⟩ hrefuses
    rw [Path.join_of_isAbsolute hbelow, hbehind way hway hne, hfrom, hlong]
  · have hlen : (Path.below dir way).utf8ByteSize ≤ maxPathBytes := by
      refine Nat.le_of_not_lt fun hlong => hrefuses ⟨hempty, hnul, .inl hlong⟩
    have hspot' : t.spot (Path.below dir way) = .ok ⟨trail', none⟩ := by
      rw [spot_eq_walk hempty hnul hlen, Path.join_of_isAbsolute hbelow,
        hbehind way hway hne, hfrom, hdown]
    rw [look_of_spot hspot', hfile]

-- ============================================================== straight

/-- The last of these names is that of a link. -/
def EndsInLink (t : FileTree) (place : List String) : Prop :=
  ∃ outer name trail entries target, place = outer ++ [name] ∧
    walk t.top maxLinks [] outer = .ok ⟨trail, none⟩ ∧
    entryAt t.top trail = .dir entries ∧ entries.lookup name = some (.link target)

/-- No `..` of these segments takes back the name of a link. -/
def Straight (t : FileTree) (way : List String) : Prop :=
  ∀ front back, way = front ++ ".." :: back → ¬ t.EndsInLink (Path.follow [] front)

theorem Straight.of_append (h : t.Straight (way ++ rest)) : t.Straight way := by
  intro front back heq
  exact h front (back ++ rest) (by rw [heq]; simp)

theorem Straight.append (h : t.Straight way) (hrest : ".." ∉ rest) :
    t.Straight (way ++ rest) := by
  intro front back heq
  rcases List.append_eq_append_iff.1 heq with ⟨mid, -, hmid⟩ | ⟨mid, hway, hmid⟩
  · exact absurd (hmid ▸ List.mem_append_right mid (List.mem_cons_self ..)) hrest
  · cases mid with
    | nil =>
        rw [List.nil_append] at hmid
        exact absurd (hmid ▸ List.mem_cons_self ..) hrest
    | cons s mid =>
        obtain ⟨rfl, -⟩ := List.cons.inj hmid
        exact h front mid hway

/-- A name that is not that of a link is entered. -/
theorem exists_enter (hname : Path.IsSegment name)
    (hlink : ∀ entries target, entryAt top trail = .dir entries →
      entries.lookup name ≠ some (.link target))
    (h : walk top links trail [name] = .ok ⟨trail', none⟩) :
    ∃ e, trail' = (name, e) :: trail ∧
      ∀ rest, walk top links trail (name :: rest) = walk top links trail' rest := by
  obtain ⟨entries, hdir⟩ := exists_dir_of_walk_cons h
  have hstay := not_or.2 ⟨hname.ne_empty, hname.ne_dot⟩
  by_cases hlong : maxNameBytes < name.utf8ByteSize
  · rw [walk_longName hdir hname.ne_empty hname.ne_dot hname.ne_dots hlong] at h
    cases h
  cases hlookup : entries.lookup name with
  | none =>
      rw [walk, hdir] at h
      simp [hstay, hname.ne_dots, hlong, hlookup] at h
  | some e =>
      have henter : ∀ rest, walk top links trail (name :: rest) =
          walk top links ((name, e) :: trail) rest := by
        intro rest
        refine walk_enter hdir hstay hname.ne_dots hlong hlookup fun target he => ?_
        exact hlink entries target hdir (he ▸ hlookup)
      rw [henter, walk] at h
      obtain rfl := (Spot.mk.inj (Except.ok.inj h)).1
      exact ⟨e, rfl, henter⟩

/-- Where the name that `..` takes back is not that of a link, the walk is
again where it entered that name. -/
theorem walk_takeBack {place : List String} (hplace : Path.IsPlace place)
    (hlink : ¬ t.EndsInLink place)
    (h : walk t.top maxLinks [] (place ++ [".."]) = .ok ⟨trail, none⟩) (rest : List String) :
    walk t.top maxLinks [] (place ++ ".." :: rest) =
      walk t.top maxLinks [] (place.dropLast ++ rest) := by
  rcases List.eq_nil_or_concat' place with rfl | ⟨outer, name, rfl⟩
  · obtain ⟨entries, hdir⟩ := exists_dir_of_walk_cons h
    exact walk_up hdir
  · obtain ⟨trail₁, hwalk₁⟩ := exists_walk_of_append (List.cons_ne_nil _ _) h
    obtain ⟨trail₂, hwalk₂⟩ := exists_walk_of_append (List.cons_ne_nil _ _) hwalk₁
    obtain ⟨links₂, hfrom⟩ := exists_walk_append hwalk₂
    rw [hfrom] at hwalk₁
    obtain ⟨e, rfl, henter⟩ := exists_enter (hplace name (by simp))
      (fun entries target hdir hlookup =>
        hlink ⟨outer, name, trail₂, entries, target, rfl, hwalk₂, hdir, hlookup⟩) hwalk₁
    rw [List.append_assoc, hfrom, List.singleton_append, henter] at h
    obtain ⟨entries, hdir⟩ := exists_dir_of_walk_cons h
    calc walk t.top maxLinks [] (outer ++ [name] ++ ".." :: rest)
        = walk t.top links₂ ((name, e) :: trail₂) (".." :: rest) := by
          rw [List.append_assoc, hfrom, List.singleton_append, henter]
      _ = walk t.top links₂ trail₂ rest := walk_up hdir
      _ = walk t.top maxLinks [] ((outer ++ [name]).dropLast ++ rest) := by
          rw [List.dropLast_concat, hfrom]

/-- A straight walk ends where the names lead that remain, and with as
many links left. -/
theorem walk_follow (hslash : ∀ s ∈ way, '/' ∉ s.toList) (h : t.Straight way)
    (hwalk : walk t.top maxLinks [] way = .ok ⟨trail, none⟩) (rest : List String) :
    walk t.top maxLinks [] (way ++ rest) =
      walk t.top maxLinks [] (Path.follow [] way ++ rest) := by
  -- by the last segment, since what it takes back is decided by those before
  induction way using List.reverseRecOn generalizing trail rest with
  | nil => rfl
  | append_singleton way s ih =>
      obtain ⟨hway, -⟩ := List.forall_mem_append.1 hslash
      have hplace := Path.isPlace_nil.follow hway
      obtain ⟨trail₁, hwalk₁⟩ := exists_walk_of_append (List.cons_ne_nil _ _) hwalk
      have ih := ih hway h.of_append hwalk₁
      rw [List.append_assoc, List.singleton_append, Path.follow_append]
      show _ = walk t.top maxLinks [] (Path.step (Path.follow [] way) s ++ rest)
      unfold Path.step
      split
      · next hstay =>
        obtain ⟨links₁, hfrom⟩ := exists_walk_append hwalk₁
        rw [hfrom] at hwalk
        obtain ⟨entries, hdir⟩ := exists_dir_of_walk_cons hwalk
        rw [hfrom, walk_stay hdir hstay, ← hfrom, ih]
      · split
        · next hdots =>
          subst hdots
          rw [ih] at hwalk ⊢
          exact walk_takeBack hplace (h way [] rfl) hwalk rest
        · rw [ih, List.append_assoc, List.singleton_append]

theorem walk_replicate (hdir : entryAt top trail = .dir entries) (n : Nat) :
    walk top links trail (List.replicate n "" ++ way) = walk top links trail way := by
  induction n with
  | zero => rfl
  | succ n ih => exact (walk_empty hdir).trans ih

/-- The normal form of a straight path leads where the path does. -/
theorem spot_normalize (habsolute : Path.isAbsolute path = true)
    (hstraight : t.Straight (Path.segments path)) (h : t.spot path = .ok ⟨trail, none⟩) :
    t.spot (Path.normalize path) = .ok ⟨trail, none⟩ := by
  obtain ⟨hnul, hlen, hwalk⟩ := walk_of_spot h
  have hless := Path.toList_normalize_sublist habsolute
  have hne : Path.normalize path ≠ "" := Path.write_ne_empty _ _
  have hnul' : (Path.normalize path).toList.contains '\x00' = false := by
    rw [Bool.eq_false_iff, ne_eq, List.contains_iff_mem] at hnul ⊢
    exact fun hmem => hnul (hless.mem hmem)
  obtain ⟨n, hsegments⟩ := Path.exists_segments_normalize habsolute
  rw [Path.join_of_isAbsolute habsolute] at hwalk
  rw [spot_eq_walk hne hnul'
      ((Path.utf8ByteSize_normalize_le habsolute).trans hlen),
    Path.join_of_isAbsolute (Path.isAbsolute_normalize_of_isAbsolute habsolute), hsegments]
  obtain ⟨s, rest, hcons⟩ := List.exists_cons_of_ne_nil (Path.segments_ne_nil path)
  obtain ⟨entries, hdir⟩ := exists_dir_of_walk_cons (hcons ▸ hwalk)
  rw [walk_replicate hdir]
  have hfollow := walk_follow (fun s hs => Path.slash_notMem_of_mem_segments hs) hstraight hwalk []
  rw [List.append_nil, List.append_nil] at hfollow
  rw [← hfollow, hwalk]

/-- Both paths lead to one place of the tree. -/
def SamePlace (t : FileTree) (p q : String) : Prop :=
  ∃ trail, t.spot p = .ok ⟨trail, none⟩ ∧ t.spot q = .ok ⟨trail, none⟩

theorem SamePlace.look {p q : String} (h : t.SamePlace p q) (hp : t.look p = .ok (some e)) :
    t.look q = .ok (some e) := by
  obtain ⟨trail, hspot, hspot'⟩ := h
  rw [look_of_spot hspot] at hp
  rw [look_of_spot hspot', hp]

end ModuleAtlas.FileTree
