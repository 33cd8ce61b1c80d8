/-
A value is read back from its text.

# What is written

`Written one s a` is what has to be known of the text `s` of a value or a
member `a`: how it starts, that it is ASCII, and that `one` reads it as
`a` wherever it stands, if what follows does not go on with a number.
Arrays and objects are both a list of parts between two brackets, and are
written so if the parts are (`Brackets.written`), in every layout: outside
the strings a layout puts blanks only, and those are skipped.

# Fuel

A call of the reader takes one unit of fuel and hands on the rest, and
the parts of a text are shorter than the text, so as much fuel as the
text is long is enough.

# Numbers

A number with a fraction or an exponent stands in a value as the text it
was written with, which need not be a number at all. `Whole` leaves such
values out.
-/
import ModuleAtlas.Proofs.Json.Text

namespace ModuleAtlas.Json

-- =============================================================== blanks

/-- The characters that may stand around a value. -/
def IsBlank (c : Char) : Prop := c = ' ' ∨ c = '\n' ∨ c = '\r' ∨ c = '\t'

variable {blanks s rest : List Char} {layout : Layout} {depth fuel : Nat}

theorem not_isBlank {c : Char} (h : c ∉ [' ', '\n', '\r', '\t']) : ¬ IsBlank c := by
  rintro (rfl | rfl | rfl | rfl)
  · exact h (by decide)
  · exact h (by decide)
  · exact h (by decide)
  · exact h (by decide)

theorem skipBlanks_eq_self {c : Char} (h : ¬ IsBlank c) : skipBlanks (c :: rest) = c :: rest := by
  rw [skipBlanks]
  exact if_neg h

theorem skipBlanks_append (h : ∀ c ∈ blanks, IsBlank c) :
    skipBlanks (blanks ++ rest) = skipBlanks rest := by
  induction blanks with
  | nil => rfl
  | cons c blanks ih =>
      rw [List.cons_append, skipBlanks]
      refine (if_pos (h c List.mem_cons_self)).trans ?_
      exact ih fun d hd => h d (List.mem_cons_of_mem _ hd)

theorem isAscii_blanks (h : ∀ c ∈ blanks, IsBlank c) : IsAscii blanks := by
  intro c hc
  rcases h c hc with rfl | rfl | rfl | rfl
  · decide
  · decide
  · decide
  · decide

/-- A number ends before a character that stands between values. -/
theorem ends_cons {c : Char} (h : c ∈ [',', ']', '\x7d', ' ', '\n', '\r', '\t']) :
    Ends (c :: rest) := by
  have hall : ∀ c ∈ [',', ']', '\x7d', ' ', '\n', '\r', '\t'],
      c.isDigit = false ∧ c ≠ '.' ∧ c ≠ 'e' ∧ c ≠ 'E' := by
    simp
  intro d hd
  exact Option.mem_some.1 hd ▸ hall c h

theorem ends_blanks (h : ∀ c ∈ blanks, IsBlank c) (hrest : Ends rest) : Ends (blanks ++ rest) := by
  cases blanks with
  | nil => exact hrest
  | cons c blanks =>
      refine ends_cons ?_
      rcases h c List.mem_cons_self with rfl | rfl | rfl | rfl
      · decide
      · decide
      · decide
      · decide

theorem isBlank_opening : ∀ c ∈ (layout.opening depth).toList, IsBlank c := by
  cases layout with
  | line => exact List.forall_mem_nil _
  | block n =>
      intro c hc
      simp only [Layout.opening, String.toList_append, String.toList_ofList] at hc
      rcases List.mem_append.1 hc with hc | hc
      · exact Or.inr (Or.inl (List.mem_singleton.1 hc))
      · exact Or.inl (List.eq_of_mem_replicate hc)

theorem isBlank_closing : ∀ c ∈ (layout.closing depth).toList, IsBlank c := by
  cases layout with
  | line => exact List.forall_mem_nil _
  | block n =>
      intro c hc
      simp only [Layout.closing, String.toList_append, String.toList_ofList] at hc
      rcases List.mem_append.1 hc with hc | hc
      · exact Or.inr (Or.inl (List.mem_singleton.1 hc))
      · exact Or.inl (List.eq_of_mem_replicate hc)

/-- Two items are parted by a comma and blanks. -/
theorem exists_between (layout : Layout) (depth : Nat) :
    ∃ blanks, (layout.between depth).toList = ',' :: blanks ∧ ∀ c ∈ blanks, IsBlank c := by
  cases layout with
  | line => exact ⟨[' '], by simp [Layout.between], fun c hc => Or.inl (List.mem_singleton.1 hc)⟩
  | block n =>
      refine ⟨((Layout.block n).opening depth).toList, ?_, isBlank_opening⟩
      simp [Layout.between]

-- ============================================================== written

/-- The text starts with a character that begins a value. -/
def Starts (s : List Char) : Prop :=
  ∃ c tail, s = c :: tail ∧ ¬ IsBlank c ∧ c ≠ ']' ∧ c ≠ '\x7d'

theorem starts_cons {c : Char} {tail : List Char}
    (h : c ∉ [' ', '\n', '\r', '\t', ']', '\x7d']) : Starts (c :: tail) := by
  refine ⟨c, tail, rfl, not_isBlank fun hblank => h ?_, ?_, ?_⟩
  · exact List.mem_append_left [']', '\x7d'] hblank
  · exact fun hc => h (by rw [hc]; decide)
  · exact fun hc => h (by rw [hc]; decide)

/-- Reads something at the front of a text. -/
abbrev FrontReader (α : Type) := (fuel : Nat) → List Char → Option (α × List Char)

/-- The text `s` stands for `a`, which `one` reads from it. -/
structure Written {α : Type} (one : FrontReader α) (s : List Char) (a : α) : Prop where
  starts : Starts s
  ascii : IsAscii s
  step : ∀ {fuel rest}, s.length ≤ fuel + 1 → Ends rest →
    one (fuel + 1) (s ++ rest) = some (a, rest)

/-- The blanks before a value are skipped, and nothing of the value. -/
theorem skipBlanks_starts (hb : ∀ c ∈ blanks, IsBlank c) (hs : Starts s) :
    skipBlanks (blanks ++ (s ++ rest)) = s ++ rest := by
  obtain ⟨c, tail, rfl, hc, -⟩ := hs
  rw [skipBlanks_append hb]
  exact skipBlanks_eq_self hc

theorem Starts.length_pos (h : Starts s) : 0 < s.length := by
  obtain ⟨c, tail, rfl, -⟩ := h
  exact Nat.succ_pos _

theorem Starts.append (h : Starts s) : Starts (s ++ rest) := by
  obtain ⟨c, tail, rfl, hc⟩ := h
  exact ⟨c, tail ++ rest, rfl, hc⟩

/-- With as much fuel as the text is long it is read. -/
theorem Written.reads {α : Type} {one : FrontReader α} {a : α} (h : Written one s a)
    (hfuel : s.length ≤ fuel) (hrest : Ends rest) : one fuel (s ++ rest) = some (a, rest) := by
  obtain ⟨n, rfl⟩ := Nat.exists_eq_add_one_of_ne_zero (n := fuel) (by
    have hpos := h.starts.length_pos
    omega)
  exact h.step hfuel hrest

-- ============================================================== scalars

theorem written_null : Written valueUpTo "null".toList .null where
  starts := starts_cons (by decide)
  ascii := isAscii_of_all rfl
  step _ _ := rfl

theorem written_true : Written valueUpTo "true".toList (.bool true) where
  starts := starts_cons (by decide)
  ascii := isAscii_of_all rfl
  step _ _ := rfl

theorem written_false : Written valueUpTo "false".toList (.bool false) where
  starts := starts_cons (by decide)
  ascii := isAscii_of_all rfl
  step _ _ := rfl

/-- What starts with a sign or a digit is read as a number. -/
theorem valueUpTo_eq_number? {c : Char} (hc : c = '-' ∨ c.isDigit = true) :
    valueUpTo (fuel + 1) (c :: rest) = number? (c :: rest) := by
  have hne : ∀ d ∈ ['n', 't', 'f', '"', '[', '\x7b'], c ≠ d := by
    intro d hd hcd
    have hnone : ∀ d ∈ ['n', 't', 'f', '"', '[', '\x7b'], ¬ (d = '-' ∨ d.isDigit = true) := by
      simp
    exact hnone d hd (hcd ▸ hc)
  have hother : ∀ d ∈ ['n', 't', 'f', '"', '[', '\x7b'], ∀ tail, c :: rest = d :: tail → False :=
    fun d hd tail h => hne d hd (List.cons.inj h).1
  rw [valueUpTo]
  · exact fun _ => hother 'n' (by decide) _
  · exact fun _ => hother 't' (by decide) _
  · exact fun _ => hother 'f' (by decide) _
  · exact fun _ => hother '"' (by decide) _
  · exact fun _ => hother '[' (by decide) _
  · exact fun _ => hother '\x7b' (by decide) _

theorem written_int (n : Int) : Written valueUpTo (toString n).toList (.int n) := by
  obtain ⟨c, hhead, hc⟩ := head?_int n
  obtain ⟨tail, htail⟩ := List.head?_eq_some_iff.1 hhead
  refine ⟨?_, isAscii_int n, ?_⟩
  · have hnone : ∀ d ∈ [' ', '\n', '\r', '\t', ']', '\x7d'], ¬ (d = '-' ∨ d.isDigit = true) := by
      simp
    exact htail ▸ starts_cons fun hbad => hnone c hbad hc
  · intro fuel rest hfuel hrest
    rw [← number?_int _ hrest, htail]
    exact valueUpTo_eq_number? hc

theorem written_str (s : String) : Written valueUpTo (quoted s).toList (.str s) := by
  have hcons := toList_quoted s []
  rw [List.append_nil] at hcons
  refine ⟨hcons ▸ starts_cons (by decide), isAscii_quoted s, ?_⟩
  intro fuel rest _ _
  rw [toList_quoted, valueUpTo, stringBody?_quoted]
  show some (Json.str (String.ofList s.toList), rest) = _
  rw [String.ofList_toList]

theorem written_arr_nil : Written valueUpTo "[]".toList (.arr []) where
  starts := starts_cons (by decide)
  ascii := isAscii_of_all rfl
  step _ _ := rfl

theorem written_obj_nil : Written valueUpTo "\x7b\x7d".toList (.obj []) where
  starts := starts_cons (by decide)
  ascii := isAscii_of_all rfl
  step _ _ := rfl

-- ============================================================= brackets

section Brackets

variable {α : Type} {one : FrontReader α} {all : FrontReader (List α)} {open_ close : Char}
  {make : List α → Json} {text : α → List Char} {first : α} {l : List α}

/-- What stands between two brackets is read one by one: the first by
`one`, and after a comma another one, until the closing bracket. -/
structure Brackets (one : FrontReader α) (all : FrontReader (List α)) (open_ close : Char)
    (make : List α → Json) : Prop where
  opens : open_ = '[' ∨ open_ = '\x7b'
  closes : close = ']' ∨ close = '\x7d'
  atOpen : ∀ {fuel s u a l rest}, Starts (skipBlanks s) →
    one fuel (skipBlanks s) = some (a, u) → all fuel u = some (l, rest) →
      valueUpTo (fuel + 1) (open_ :: s) = some (make (a :: l), rest)
  atEnd : ∀ {fuel s rest}, skipBlanks s = close :: rest → all (fuel + 1) s = some ([], rest)
  atComma : ∀ {fuel s t u a l rest}, skipBlanks s = ',' :: t →
    one fuel (skipBlanks t) = some (a, u) → all fuel u = some (l, rest) →
      all (fuel + 1) s = some (a :: l, rest)

theorem brackets_array : Brackets valueUpTo itemsUpTo '[' ']' .arr where
  opens := Or.inl rfl
  closes := Or.inl rfl
  atOpen := by
    intro fuel s u a l rest hs ha hl
    obtain ⟨c, tail, hcons, -, hc, -⟩ := hs
    rw [valueUpTo]
    split
    · next h => exact absurd (List.cons.inj (hcons.symm.trans h)).1 hc
    · rw [ha]
      show (itemsUpTo fuel u).bind _ = _
      rw [hl]
      rfl
  atEnd h := by
    rw [itemsUpTo, h]
    rfl
  atComma := by
    intro fuel s t u a l rest h ha hl
    rw [itemsUpTo, h]
    show (valueUpTo fuel (skipBlanks t)).bind _ = _
    rw [ha]
    show (itemsUpTo fuel u).bind _ = _
    rw [hl]
    rfl

theorem brackets_object : Brackets memberUpTo membersUpTo '\x7b' '\x7d' .obj where
  opens := Or.inr rfl
  closes := Or.inr rfl
  atOpen := by
    intro fuel s u a l rest hs ha hl
    obtain ⟨c, tail, hcons, -, -, hc⟩ := hs
    rw [valueUpTo]
    split
    · next h => exact absurd (List.cons.inj (hcons.symm.trans h)).1 hc
    · rw [ha]
      show (membersUpTo fuel u).bind _ = _
      rw [hl]
      rfl
  atEnd h := by
    rw [membersUpTo, h]
    rfl
  atComma := by
    intro fuel s t u a l rest h ha hl
    rw [membersUpTo, h]
    show (memberUpTo fuel (skipBlanks t)).bind _ = _
    rw [ha]
    show (membersUpTo fuel u).bind _ = _
    rw [hl]
    rfl

/-- What follows the first one, each after what stands between two. -/
def following (layout : Layout) (depth : Nat) (text : α → List Char) (l : List α) : List Char :=
  l.flatMap fun a => (layout.between depth).toList ++ text a

theorem following_cons (a : α) :
    following layout depth text (a :: l) =
      (layout.between depth).toList ++ text a ++ following layout depth text l :=
  List.flatMap_cons

/-- All of it between the brackets. -/
def enclosed (layout : Layout) (depth : Nat) (open_ close : Char) (text : α → List Char)
    (first : α) (l : List α) : List Char :=
  open_ :: ((layout.opening depth).toList ++ (text first ++ following layout depth text l ++
    ((layout.closing depth).toList ++ [close])))

/-- A number ends before what follows it, be it a comma or the end. -/
theorem ends_following (hrest : Ends rest) : Ends (following layout depth text l ++ rest) := by
  cases l with
  | nil => exact hrest
  | cons a l =>
      obtain ⟨blanks, hbetween, -⟩ := exists_between layout depth
      rw [following_cons, hbetween]
      exact ends_cons (by decide)

theorem Brackets.ends_closing (h : Brackets one all open_ close make) :
    Ends ((layout.closing depth).toList ++ close :: rest) := by
  refine ends_blanks isBlank_closing (ends_cons ?_)
  rcases h.closes with rfl | rfl
  · decide
  · decide

theorem Brackets.skipBlanks_closing (h : Brackets one all open_ close make) :
    skipBlanks ((layout.closing depth).toList ++ close :: rest) = close :: rest := by
  rw [skipBlanks_append isBlank_closing]
  refine skipBlanks_eq_self (not_isBlank ?_)
  rcases h.closes with rfl | rfl
  · decide
  · decide

/-- What follows the first one is read up to the bracket. -/
theorem Brackets.reads_following (h : Brackets one all open_ close make)
    (hl : ∀ a ∈ l, Written one (text a) a)
    (hfuel : (following layout depth text l).length < fuel) :
    all fuel (following layout depth text l ++ ((layout.closing depth).toList ++ close :: rest)) =
      some (l, rest) := by
  induction l generalizing fuel with
  | nil =>
      obtain ⟨n, rfl⟩ := Nat.exists_eq_add_one_of_ne_zero (Nat.ne_zero_of_lt hfuel)
      exact h.atEnd h.skipBlanks_closing
  | cons a l ih =>
      rw [List.forall_mem_cons] at hl
      obtain ⟨n, rfl⟩ := Nat.exists_eq_add_one_of_ne_zero (Nat.ne_zero_of_lt hfuel)
      obtain ⟨blanks, hbetween, hb⟩ := exists_between layout depth
      have hpos := hl.1.starts.length_pos
      have htext : following layout depth text (a :: l) =
          ',' :: (blanks ++ (text a ++ following layout depth text l)) := by
        rw [following_cons, hbetween, List.append_assoc]
        rfl
      rw [htext] at hfuel ⊢
      simp only [List.length_cons, List.length_append] at hfuel
      simp only [List.cons_append, List.append_assoc]
      refine h.atComma (skipBlanks_eq_self (not_isBlank (by decide))) ?_ (ih hl.2 (by omega))
      rw [skipBlanks_starts hb hl.1.starts]
      exact hl.1.reads (by omega) (ends_following h.ends_closing)

theorem isAscii_following (hl : ∀ a ∈ l, IsAscii (text a)) :
    IsAscii (following layout depth text l) := by
  obtain ⟨blanks, hbetween, hb⟩ := exists_between layout depth
  intro x hx
  obtain ⟨a, ha, hx⟩ := List.mem_flatMap.1 hx
  rw [hbetween] at hx
  exact (((isAscii_blanks hb).cons (by decide)).append (hl a ha)) x hx

/-- What stands between brackets is written if each part of it is. -/
theorem Brackets.written (h : Brackets one all open_ close make)
    (hl : ∀ a ∈ first :: l, Written one (text a) a) :
    Written valueUpTo (enclosed layout depth open_ close text first l) (make (first :: l)) := by
  rw [List.forall_mem_cons] at hl
  obtain ⟨hfirst, hl⟩ := hl
  refine ⟨?_, ?_, ?_⟩
  · rcases h.opens with rfl | rfl
    · exact starts_cons (by decide)
    · exact starts_cons (by decide)
  · have hparts : IsAscii (text first ++ following layout depth text l) :=
      hfirst.ascii.append (isAscii_following fun a ha => (hl a ha).ascii)
    have hopen : open_.toNat < 128 := by rcases h.opens with rfl | rfl <;> decide
    have hclose : close.toNat < 128 := by rcases h.closes with rfl | rfl <;> decide
    exact .cons hopen <| (isAscii_blanks isBlank_opening).append <|
      hparts.append <| (isAscii_blanks isBlank_closing).append <|
        .cons hclose (List.forall_mem_nil _)
  · intro fuel rest hfuel _
    simp only [enclosed, List.length_cons, List.length_append, List.length_nil] at hfuel
    simp only [enclosed, List.cons_append, List.append_assoc, List.nil_append]
    have hone : (text first).length ≤ fuel := by omega
    have hothers : (following layout depth text l).length < fuel := by omega
    refine h.atOpen ?_ ?_ (h.reads_following hl hothers)
    · rw [skipBlanks_starts isBlank_opening hfirst.starts]
      exact hfirst.starts.append
    · rw [skipBlanks_starts isBlank_opening hfirst.starts]
      exact hfirst.reads hone (ends_following h.ends_closing)

end Brackets

-- =============================================================== arrays

theorem toList_renderItems (items : List Json) :
    (renderItems layout depth items).toList =
      following layout depth (fun item => (renderAt layout (depth + 1) item).toList) items := by
  induction items with
  | nil => rw [renderItems]; rfl
  | cons item items ih =>
      rw [renderItems, String.toList_append, String.toList_append, ih, following_cons]

theorem toList_renderAt_arr (item : Json) (items : List Json) :
    (renderAt layout depth (.arr (item :: items))).toList =
      enclosed layout depth '[' ']' (fun item => (renderAt layout (depth + 1) item).toList)
        item items := by
  rw [renderAt, enclosed, ← toList_renderItems]
  simp

-- ============================================================== objects

theorem toList_renderMember (key : String) (v : Json) :
    (renderMember layout depth (key, v)).toList =
      (quoted key).toList ++ ':' :: ' ' :: (renderAt layout (depth + 1) v).toList := by
  simp [renderMember]

/-- A member is written if its value is. -/
theorem written_renderMember {member : String × Json}
    (h : Written valueUpTo (renderAt layout (depth + 1) member.2).toList member.2) :
    Written memberUpTo (renderMember layout depth member).toList member := by
  obtain ⟨key, v⟩ := member
  rw [toList_renderMember]
  refine ⟨?_, ?_, ?_⟩
  · rw [toList_quoted]
    exact starts_cons (by decide)
  · exact (isAscii_quoted _).append (.cons (by decide) (.cons (by decide) h.ascii))
  · intro fuel rest hfuel hrest
    rw [List.length_append, List.length_cons, List.length_cons] at hfuel
    have hvalue : (renderAt layout (depth + 1) v).toList.length ≤ fuel := by omega
    have hblank : ∀ c ∈ [' '], IsBlank c := fun c hc => Or.inl (List.mem_singleton.1 hc)
    have hskip : skipBlanks (' ' :: ((renderAt layout (depth + 1) v).toList ++ rest)) =
        (renderAt layout (depth + 1) v).toList ++ rest :=
      skipBlanks_starts hblank h.starts
    rw [List.append_assoc, toList_quoted, memberUpTo, stringBody?_quoted]
    show (valueUpTo fuel (skipBlanks (' ' ::
      ((renderAt layout (depth + 1) v).toList ++ rest)))).bind _ = _
    rw [hskip, h.reads hvalue hrest]
    show some ((String.ofList key.toList, v), rest) = _
    rw [String.ofList_toList]

theorem toList_renderMembers (members : List (String × Json)) :
    (renderMembers layout depth members).toList =
      following layout depth (fun member => (renderMember layout depth member).toList)
        members := by
  induction members with
  | nil => rw [renderMembers]; rfl
  | cons member members ih =>
      rw [renderMembers, String.toList_append, String.toList_append, ih, following_cons]

theorem toList_renderAt_obj (member : String × Json) (members : List (String × Json)) :
    (renderAt layout depth (.obj (member :: members))).toList =
      enclosed layout depth '\x7b' '\x7d'
        (fun member => (renderMember layout depth member).toList) member members := by
  rw [renderAt, enclosed, ← toList_renderMembers]
  simp

-- =============================================================== values

/-- Every number in the value is a whole one. -/
inductive Whole : Json → Prop where
  | null : Whole .null
  | bool (b : Bool) : Whole (.bool b)
  | int (n : Int) : Whole (.int n)
  | str (s : String) : Whole (.str s)
  | arr {items : List Json} (h : ∀ item ∈ items, Whole item) : Whole (.arr items)
  | obj {members : List (String × Json)} (h : ∀ member ∈ members, Whole member.2) :
      Whole (.obj members)

/-- The text of a value stands for the value, at every depth. -/
theorem Whole.written {v : Json} (h : Whole v) (layout : Layout) (depth : Nat) :
    Written valueUpTo (renderAt layout depth v).toList v := by
  induction h generalizing depth with
  | null => rw [renderAt]; exact written_null
  | bool b =>
      cases b with
      | true => rw [renderAt]; exact written_true
      | false => rw [renderAt]; exact written_false
  | int n => rw [renderAt]; exact written_int n
  | str s => rw [renderAt]; exact written_str s
  | @arr items _ ih =>
      cases items with
      | nil => rw [renderAt]; exact written_arr_nil
      | cons item items =>
          rw [toList_renderAt_arr]
          exact brackets_array.written fun i hi => ih i hi (depth + 1)
  | @obj members _ ih =>
      cases members with
      | nil => rw [renderAt]; exact written_obj_nil
      | cons member members =>
          rw [toList_renderAt_obj]
          exact brackets_object.written fun m hm => written_renderMember (ih m hm (depth + 1))

/-- A value is read back from its text, in every layout. -/
theorem Whole.read?_render {v : Json} (h : Whole v) (layout : Layout) :
    read? (render layout v) = some v := by
  have hwritten := h.written layout 0
  obtain ⟨c, tail, htext, hc, -⟩ := hwritten.starts
  have hskip : skipBlanks (renderAt layout 0 v).toList = (renderAt layout 0 v).toList := by
    rw [htext]
    exact skipBlanks_eq_self hc
  have hends : Ends [] := fun _ hnone => nomatch hnone
  have hreads : valueUpTo (2 * (renderAt layout 0 v).toList.length + 2)
      ((renderAt layout 0 v).toList ++ []) = some (v, []) :=
    hwritten.reads (by omega) hends
  rw [List.append_nil] at hreads
  simp only [read?, render, hskip, hreads]
  rfl

/-- The text of a value is ASCII. -/
theorem Whole.isAscii_render {v : Json} (h : Whole v) (layout : Layout) :
    IsAscii (render layout v).toList :=
  (h.written layout 0).ascii

end ModuleAtlas.Json
