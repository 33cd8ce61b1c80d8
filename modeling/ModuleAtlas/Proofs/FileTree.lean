/-
Where a path leads.

A path that is neither empty nor too long nor holds a NUL is walked from
the top (`spot_eq_walk`). Everything that is asked about a path is read
off the end of that walk, so what is found there answers it.

Not every question gets an answer: the system refuses one about a path
that is too long, or that comes to a name that is (`Refuses`). Whether
such a path is a file remains open, and there is no other path of which
that is so (`isFile_eq_error_iff`).
-/
import ModuleAtlas.FileTree
import ModuleAtlas.Proofs.Success

namespace ModuleAtlas.FileTree

variable {t : FileTree} {path : String}

theorem spot_eq_walk (hne : path ≠ "")
    (hnul : path.toList.contains '\x00' = false)
    (hlen : path.utf8ByteSize ≤ maxPathBytes) :
    t.spot path = walk t.top maxLinks []
      (Path.segments (Path.join t.here path)) := by
  unfold spot
  rw [if_neg, if_neg]
  · omega
  · intro h
    rcases h with h | h
    · exact hne h
    · rw [hnul] at h
      cases h

/-- What a path leads to is at the end of its trail. -/
theorem look_of_spot {trail : List (String × Entry)} (h : t.spot path = .ok ⟨trail, none⟩) :
    t.look path = .ok (some (entryAt t.top trail)) := by
  unfold look
  rw [h]

theorem spot_of_look {e : Entry} (h : t.look path = .ok (some e)) :
    ∃ trail, t.spot path = .ok ⟨trail, none⟩ ∧ entryAt t.top trail = e := by
  unfold look at h
  split at h
  · next trail hspot => exact ⟨trail, hspot, Option.some.inj (Except.ok.inj h)⟩
  all_goals cases h

/-- What leads anywhere was walked. -/
theorem walk_of_spot {spot : Spot} (h : t.spot path = .ok spot) :
    path.toList.contains '\x00' = false ∧ path.utf8ByteSize ≤ maxPathBytes ∧
      walk t.top maxLinks [] (Path.segments (Path.join t.here path)) = .ok spot := by
  unfold FileTree.spot at h
  split at h
  · cases h
  · next hodd =>
    rw [not_or, Bool.not_eq_true] at hodd
    split at h
    · cases h
    · next hlen => exact ⟨hodd.2, Nat.le_of_not_lt hlen, h⟩

-- =============================================================== files

theorem leadsSomewhere_of_look {e : Entry} (h : t.look path = .ok (some e)) :
    t.leadsSomewhere path = true := by
  unfold leadsSomewhere
  rw [h]

theorem isFile_of_look {content : Bytes}
    (h : t.look path = .ok (some (.file content))) :
    t.isFile path = .ok true := by
  unfold isFile
  rw [h]
  rfl

/-- A file is what looks like one. -/
theorem isFile_eq_true_iff :
    t.isFile path = .ok true ↔ ∃ content, t.look path = .ok (some (.file content)) := by
  constructor
  · intro h
    obtain ⟨found, hlook, h⟩ := Success.bind_eq_ok_iff.1 h
    split at h
    · exact ⟨_, hlook⟩
    · cases h
  · intro h
    obtain ⟨content, hlook⟩ := h
    exact isFile_of_look hlook

theorem read_of_look {content : Bytes}
    (h : t.look path = .ok (some (.file content))) :
    t.read path = .ok content := by
  unfold read
  rw [h]
  rfl

theorem look_of_read {content : Bytes} (h : t.read path = .ok content) :
    t.look path = .ok (some (.file content)) := by
  obtain ⟨found, hlook, h⟩ := Success.bind_eq_ok_iff.1 h
  split at h
  · obtain rfl := Except.ok.inj h
    exact hlook
  · cases h
  · cases h

/-- What can be read is there. -/
theorem leadsSomewhere_of_read {content : Bytes}
    (h : t.read path = .ok content) : t.leadsSomewhere path = true :=
  leadsSomewhere_of_look (look_of_read h)

-- =========================================================== refusals

/-- The system does not tell where the path leads: it is too long as a
whole, or the walk along it comes to a name that is too long. -/
def Refuses (t : FileTree) (path : String) : Prop :=
  path ≠ "" ∧ path.toList.contains '\x00' = false ∧
    (maxPathBytes < path.utf8ByteSize ∨
      walk t.top maxLinks [] (Path.segments (Path.join t.here path)) =
        .error .nameTooLong)

theorem refuses_iff_spot :
    t.Refuses path ↔ t.spot path = .error .nameTooLong := by
  unfold Refuses spot
  by_cases hodd : path = "" ∨ path.toList.contains '\x00' = true
  · rw [if_pos hodd]
    constructor
    · intro h
      obtain ⟨hne, hnul, -⟩ := h
      rcases hodd with hempty | hnul'
      · exact absurd hempty hne
      · rw [hnul] at hnul'
        cases hnul'
    · intro h
      cases h
  · rw [if_neg hodd]
    rw [not_or, Bool.not_eq_true] at hodd
    by_cases hlen : maxPathBytes < path.utf8ByteSize
    · rw [if_pos hlen]
      exact ⟨fun _ => rfl, fun _ => ⟨hodd.1, hodd.2, .inl hlen⟩⟩
    · rw [if_neg hlen]
      constructor
      · intro h
        exact h.2.2.resolve_left hlen
      · intro h
        exact ⟨hodd.1, hodd.2, .inr h⟩

theorem look_eq_error_iff {e : SystemError} :
    t.look path = .error e ↔ t.Refuses path ∧ e = .nameTooLong path := by
  rw [refuses_iff_spot]
  unfold look
  cases t.spot path with
  | ok s =>
      obtain ⟨trail, absent⟩ := s
      cases absent <;> simp
  | error halt =>
      cases halt with
      | nameTooLong => simp [eq_comm]
      | nothing => simp
      | notDirectory => simp
      | tooManyLinks => simp

/-- The system refuses to tell whether a path is a file for no other
reason. -/
theorem isFile_eq_error_iff {e : SystemError} :
    t.isFile path = .error e ↔ t.Refuses path ∧ e = .nameTooLong path := by
  rw [← look_eq_error_iff]
  unfold isFile
  rw [Success.bind_eq_error_iff]
  constructor
  · intro h
    rcases h with h | ⟨found, -, h⟩
    · exact h
    · split at h <;> cases h
  · intro h
    exact .inl h

-- ============================================================== steps

variable {top e : Entry} {links : Nat} {trail entries : List (String × Entry)}
    {name target : String} {rest : List String}

theorem walk_stay (hdir : entryAt top trail = .dir entries) (hstay : name = "" ∨ name = ".") :
    walk top links trail (name :: rest) = walk top links trail rest := by
  rw [walk, hdir]
  simp only [hstay, if_true]

/-- An empty segment is passed over. -/
theorem walk_empty (hdir : entryAt top trail = .dir entries) :
    walk top links trail ("" :: rest) = walk top links trail rest :=
  walk_stay hdir (.inl rfl)

/-- From a directory, the walk leaves for the one above it in the tree. -/
theorem walk_up (hdir : entryAt top trail = .dir entries) :
    walk top links trail (".." :: rest) = walk top links trail.tail rest := by
  rw [walk, hdir]
  simp only [String.reduceEq, or_self, if_false, if_true]

/-- What is no link is entered. -/
theorem walk_enter (hdir : entryAt top trail = .dir entries)
    (hstay : ¬ (name = "" ∨ name = ".")) (hdots : name ≠ "..")
    (hshort : ¬ maxNameBytes < name.utf8ByteSize) (hname : entries.lookup name = some e)
    (hlink : ∀ target, e ≠ .link target) :
    walk top links trail (name :: rest) = walk top links ((name, e) :: trail) rest := by
  rw [walk, hdir]
  simp only [hstay, hdots, if_false, hshort, hname]

/-- In a directory, a name that is too long is refused. -/
theorem walk_longName (hdir : entryAt top trail = .dir entries) (hne : name ≠ "")
    (hdot : name ≠ ".") (hdots : name ≠ "..")
    (hlong : maxNameBytes < name.utf8ByteSize) :
    walk top links trail (name :: rest) = .error .nameTooLong := by
  rw [walk, hdir]
  simp only [hne, hdot, hdots, or_self, if_false, hlong, if_true]

/-- A link is replaced by its target. -/
theorem walk_link (hdir : entryAt top trail = .dir entries) (hne : name ≠ "")
    (hdot : name ≠ ".") (hdots : name ≠ "..")
    (hshort : name.utf8ByteSize ≤ maxNameBytes)
    (hname : entries.lookup name = some (.link target)) :
    walk top (links + 1) trail (name :: rest) =
      walk top links (if Path.isAbsolute target then [] else trail)
        (Path.segments target ++ rest) := by
  rw [walk, hdir]
  simp only [hne, hdot, hdots, or_self, if_false, Nat.not_lt.2 hshort, hname]

/-- Only from a directory does a walk go on. -/
theorem exists_dir_of_walk_cons {spot : Spot}
    (h : walk top links trail (name :: rest) = .ok spot) :
    ∃ entries, entryAt top trail = .dir entries := by
  rw [walk] at h
  cases hdir : entryAt top trail with
  | dir entries => exact ⟨entries, rfl⟩
  | file content => rw [hdir] at h; cases h
  | link target => rw [hdir] at h; cases h

end ModuleAtlas.FileTree
