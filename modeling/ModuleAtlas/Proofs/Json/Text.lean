/-
Strings and whole numbers are read as they were written.

# Strings

Every character has one written form, which is read back as that
character wherever it stands (`stringBody?_escape`): by itself, as a
letter after a backslash, as one UTF-16 unit, or as a pair of units. A
unit that stands alone begins no pair, since no character is a surrogate.
So a string is read up to the quote that ends it and no further
(`stringBody?_escaped`). All of its written form is ASCII.

# Numbers

A whole number is read to its last digit (`number?_int`), if what follows
does not go on with it (`Ends`).
-/
import Mathlib.Data.List.TakeDrop
import ModuleAtlas.Json.Reader

namespace ModuleAtlas.Json

/-- All the text is ASCII. -/
def IsAscii (s : List Char) : Prop := ∀ c ∈ s, c.toNat < 128

theorem isAscii_of_all {s : List Char} (h : s.all (fun c => c.toNat < 128) = true) : IsAscii s :=
  fun c hc => of_decide_eq_true (List.all_eq_true.1 h c hc)

theorem IsAscii.append {s t : List Char} (hs : IsAscii s) (ht : IsAscii t) : IsAscii (s ++ t) :=
  fun c hc => (List.mem_append.1 hc).elim (hs c) (ht c)

theorem IsAscii.cons {c : Char} {s : List Char} (hc : c.toNat < 128) (hs : IsAscii s) :
    IsAscii (c :: s) :=
  List.forall_mem_cons.2 ⟨hc, hs⟩

-- =============================================================== digits

theorem hexValue?_hexDigit : ∀ n < 16, hexValue? (hexDigit n) = some n := by
  decide

theorem hexDigit_lt : ∀ n < 16, (hexDigit n).toNat < 128 := by
  decide

/-- Four digits spell a unit. -/
theorem unit?_digits {n : Nat} (h : n < 0x10000) :
    unit? (hexDigit (n / 4096 % 16)) (hexDigit (n / 256 % 16)) (hexDigit (n / 16 % 16))
      (hexDigit (n % 16)) = some n := by
  unfold unit?
  rw [hexValue?_hexDigit _ (Nat.mod_lt _ (by decide)),
    hexValue?_hexDigit _ (Nat.mod_lt _ (by decide)),
    hexValue?_hexDigit _ (Nat.mod_lt _ (by decide)),
    hexValue?_hexDigit _ (Nat.mod_lt _ (by decide))]
  show some _ = some n
  congr 1
  omega

-- ============================================================== strings

variable {read rest : List Char} {fuel n : Nat} {c : Char}

/-- A unit that is no high surrogate begins no pair. -/
theorem pairedUnit?_eq_none (h : ¬ (0xd800 ≤ n ∧ n < 0xdc00)) (s : List Char) :
    stringBody?.pairedUnit? n s = none := by
  unfold stringBody?.pairedUnit?
  split
  · next a b c d rest =>
    cases unit? a b c d with
    | none => rfl
    | some low =>
        show (if _ then _ else _) = _
        rw [if_neg fun hpair => h ⟨hpair.1, hpair.2.1⟩]
  · rfl

/-- One unit is read as the character that it is. -/
theorem stringBody?_unit (h : n < 0x10000) (hn : ¬ (0xd800 ≤ n ∧ n < 0xe000)) :
    stringBody? read (fuel + 1) (unitEscape n ++ rest) =
      stringBody? (Char.ofNat n :: read) fuel rest := by
  unfold unitEscape
  simp only [List.cons_append, List.nil_append]
  rw [stringBody?, unit?_digits h]
  dsimp only
  rw [pairedUnit?_eq_none (by omega)]
  dsimp only
  rw [unitChar, if_neg hn]

/-- A pair of units is read as one character. -/
theorem stringBody?_pair {m : Nat} (h : m < 0x100000) :
    stringBody? read (fuel + 1)
        (unitEscape (0xd800 + m / 1024) ++ unitEscape (0xdc00 + m % 1024) ++ rest) =
      stringBody? (Char.ofNat (0x10000 + m) :: read) fuel rest := by
  have hlow : m % 1024 < 1024 := Nat.mod_lt _ (by decide)
  have hhigh : m / 1024 < 1024 := Nat.div_lt_of_lt_mul h
  have hpair : stringBody?.pairedUnit? (0xd800 + m / 1024)
      (unitEscape (0xdc00 + m % 1024) ++ rest) = some (Char.ofNat (0x10000 + m), rest) := by
    unfold unitEscape
    simp only [List.cons_append, List.nil_append]
    rw [stringBody?.pairedUnit?, unit?_digits (by omega)]
    show (if _ then _ else _) = _
    rw [if_pos (by omega)]
    have hvalue : 0x10000 + (0xd800 + m / 1024 - 0xd800) * 1024 + (0xdc00 + m % 1024 - 0xdc00) =
        0x10000 + m := by
      omega
    rw [hvalue]
    rfl
  rw [List.append_assoc, unitEscape]
  simp only [List.cons_append, List.nil_append]
  rw [stringBody?, unit?_digits (by omega)]
  dsimp only
  rw [hpair]

/-- A character that can stand by itself is read as it is. -/
theorem stringBody?_plain (hquote : c ≠ '"') (hslash : c ≠ '\\') (hc : 0x20 ≤ c.toNat) :
    stringBody? read (fuel + 1) (c :: rest) = stringBody? (c :: read) fuel rest := by
  rw [stringBody?.eq_def]
  split
  · next hfuel => cases hfuel
  · next htext => cases htext
  · next htext => exact absurd (List.cons.inj htext).1 hquote
  · next htext => exact absurd (List.cons.inj htext).1 hslash
  · next htext => exact absurd (List.cons.inj htext).1 hslash
  · next hfuel htext =>
    obtain ⟨rfl, rfl⟩ := List.cons.inj htext
    obtain rfl := Nat.succ.inj hfuel
    rw [if_neg fun hbad => hbad.elim (Nat.not_lt.2 hc) hslash]

/-- No character is a surrogate, and none is behind the last plane. -/
theorem scalar (c : Char) :
    ¬ (0xd800 ≤ c.toNat ∧ c.toNat < 0xe000) ∧ c.toNat < 0x110000 := by
  have hvalid : c.toNat < 0xd800 ∨ 0xdfff < c.toNat ∧ c.toNat < 0x110000 := c.valid
  omega

/-- A character is read back from its written form. -/
theorem stringBody?_escape (c : Char) :
    stringBody? read (fuel + 1) (escape c ++ rest) = stringBody? (c :: read) fuel rest := by
  unfold escape
  split
  · next hc => subst hc; rfl
  split
  · next hc => subst hc; rfl
  split
  · next hc => subst hc; rfl
  split
  · next hc => subst hc; rfl
  split
  · next hc => subst hc; rfl
  split
  · next hc => subst hc; rfl
  split
  · next hc => subst hc; rfl
  split
  · next hquote hslash _ _ _ _ _ hc => exact stringBody?_plain hquote hslash hc.1
  split
  · next hc =>
    rw [stringBody?_unit hc (scalar c).1, Char.ofNat_toNat]
  · next hc =>
    have hlast := (scalar c).2
    dsimp only
    rw [stringBody?_pair (by omega), Nat.add_sub_cancel' (by omega), Char.ofNat_toNat]

/-- A string is read up to the quote that ends it. -/
theorem stringBody?_escaped {s : List Char} (h : s.length < fuel) :
    stringBody? read fuel (s.flatMap escape ++ '"' :: rest) =
      some (read.reverse ++ s, rest) := by
  induction s generalizing read fuel with
  | nil =>
      obtain ⟨fuel, rfl⟩ := Nat.exists_eq_add_one_of_ne_zero (Nat.ne_of_gt h)
      rw [List.append_nil]
      rfl
  | cons c s ih =>
      obtain ⟨fuel, rfl⟩ := Nat.exists_eq_add_one_of_ne_zero (Nat.ne_zero_of_lt h)
      rw [List.flatMap_cons, List.append_assoc, stringBody?_escape,
        ih (Nat.lt_of_succ_lt_succ h), List.reverse_cons, List.append_assoc]
      rfl

/-- The written form of a character takes one character at least. -/
theorem length_le_escaped (s : List Char) : s.length ≤ (s.flatMap escape).length := by
  have hone : ∀ c, 1 ≤ (escape c).length := by
    intro c
    unfold escape unitEscape
    repeat' split
    all_goals simp
  induction s with
  | nil => exact Nat.zero_le _
  | cons c s ih =>
      have hc := hone c
      rw [List.flatMap_cons, List.length_append, List.length_cons]
      omega

theorem isAscii_unitEscape (n : Nat) : IsAscii (unitEscape n) := by
  have hdigit : ∀ k, (hexDigit (k % 16)).toNat < 128 :=
    fun k => hexDigit_lt _ (Nat.mod_lt _ (by decide))
  intro x hx
  simp only [unitEscape, List.mem_cons, List.not_mem_nil, or_false] at hx
  rcases hx with rfl | rfl | rfl | rfl | rfl | rfl
  · decide
  · decide
  · exact hdigit _
  · exact hdigit _
  · exact hdigit _
  · exact hdigit _

/-- The written form of a character is ASCII. -/
theorem isAscii_escape (c : Char) : IsAscii (escape c) := by
  unfold escape
  split
  · exact isAscii_of_all rfl
  split
  · exact isAscii_of_all rfl
  split
  · exact isAscii_of_all rfl
  split
  · exact isAscii_of_all rfl
  split
  · exact isAscii_of_all rfl
  split
  · exact isAscii_of_all rfl
  split
  · exact isAscii_of_all rfl
  split
  · next hc =>
    intro x hx
    rw [List.mem_singleton.1 hx]
    omega
  split
  · exact isAscii_unitEscape _
  · exact (isAscii_unitEscape _).append (isAscii_unitEscape _)

theorem toList_quoted (s : String) (rest : List Char) :
    (quoted s).toList ++ rest = '"' :: (s.toList.flatMap escape ++ '"' :: rest) := by
  simp [quoted]

/-- The quote before a string has been taken: what is left of it is read
as the string. -/
theorem stringBody?_quoted (s : String) :
    stringBody? [] ((s.toList.flatMap escape ++ '"' :: rest).length + 1)
        (s.toList.flatMap escape ++ '"' :: rest) =
      some (s.toList, rest) := by
  have hlength := length_le_escaped s.toList
  exact stringBody?_escaped (by rw [List.length_append]; omega)

theorem isAscii_quoted (s : String) : IsAscii (quoted s).toList := by
  have hbody : IsAscii (s.toList.flatMap escape) := by
    intro x hx
    obtain ⟨c, -, hx⟩ := List.mem_flatMap.1 hx
    exact isAscii_escape c x hx
  rw [← List.append_nil (quoted s).toList, toList_quoted]
  exact .cons (by decide) (hbody.append (.cons (by decide) (List.forall_mem_nil _)))

-- ============================================================== numbers

/-- What follows does not go on with a number. -/
def Ends (rest : List Char) : Prop :=
  ∀ c ∈ rest.head?, c.isDigit = false ∧ c ≠ '.' ∧ c ≠ 'e' ∧ c ≠ 'E'

/-- A run of digits is read to its end. -/
theorem digits?_append {ds : List Char} (hne : ds ≠ []) (hds : ∀ c ∈ ds, c.isDigit = true)
    (hrest : Ends rest) : digits? (ds ++ rest) = some (ds, rest) := by
  have hspan : (ds ++ rest).span Char.isDigit = (ds, rest) := by
    rw [List.span_eq_takeWhile_dropWhile, List.takeWhile_append_of_pos hds,
      List.dropWhile_append_of_pos hds]
    cases rest with
    | nil => rw [List.takeWhile_nil, List.dropWhile_nil, List.append_nil]
    | cons c rest =>
        have hc := (hrest c rfl).1
        rw [List.takeWhile_cons_of_neg (by rw [hc]; simp), List.append_nil,
          List.dropWhile_cons_of_neg (by rw [hc]; simp)]
  unfold digits?
  rw [hspan]
  cases ds with
  | nil => exact absurd rfl hne
  | cons d ds => rfl

theorem digitsValue_toDigits (n : Nat) : digitsValue (Nat.toDigits 10 n) = n := by
  unfold digitsValue
  simp only [Nat.mul_comm _ 10]
  exact Nat.ofDigitChars_ten_toDigits

/-- No number but zero starts with the digit zero. -/
theorem head?_toDigits {n : Nat} (h : 0 < n) : (Nat.toDigits 10 n).head? ≠ some '0' := by
  have hdigit : ∀ n < 10, 0 < n → [n.digitChar].head? ≠ some '0' := by decide
  induction n using Nat.strongRecOn with
  | ind n ih =>
      by_cases hn : n < 10
      · rw [Nat.toDigits_of_lt_base hn]
        exact hdigit n hn h
      · rw [Nat.toDigits_of_base_le (by decide) (by omega), List.head?_append]
        have hhead := ih (n / 10) (by omega) (by omega)
        cases hdigits : (Nat.toDigits 10 (n / 10)).head? with
        | none => exact absurd (List.head?_eq_none_iff.1 hdigits) Nat.toDigits_ne_nil
        | some c => rw [hdigits] at hhead; exact hhead

/-- More digits than one do not start with zero. -/
theorem not_leading_zero (n : Nat) :
    ¬ (1 < (Nat.toDigits 10 n).length ∧ (Nat.toDigits 10 n).head? = some '0') := by
  intro h
  cases n with
  | zero => exact absurd h.1 (by decide)
  | succ n => exact head?_toDigits (Nat.succ_pos n) h.2

theorem isDigit_toDigits {n : Nat} {c : Char} (h : c ∈ Nat.toDigits 10 n) : c.isDigit = true :=
  Nat.isDigit_of_mem_toDigits (by decide) (by decide) h

/-- A number without a sign starts with a digit. -/
theorem toDigits_append_eq_cons (n : Nat) (rest : List Char) :
    ∃ c tail, Nat.toDigits 10 n ++ rest = c :: tail ∧ c.isDigit = true := by
  cases hdigits : Nat.toDigits 10 n with
  | nil => exact absurd hdigits Nat.toDigits_ne_nil
  | cons c ds =>
      exact ⟨c, ds ++ rest, rfl, isDigit_toDigits (hdigits ▸ List.mem_cons_self)⟩

theorem digits?_toDigits (n : Nat) (hrest : Ends rest) :
    digits? (Nat.toDigits 10 n ++ rest) = some (Nat.toDigits 10 n, rest) :=
  digits?_append Nat.toDigits_ne_nil (fun _ => isDigit_toDigits) hrest

/-- Digits without a sign are read as the number they spell. -/
theorem number?_unsigned (n : Nat) (hrest : Ends rest) :
    number? (Nat.toDigits 10 n ++ rest) = some (.int n, rest) := by
  obtain ⟨c, tail, hcons, hc⟩ := toDigits_append_eq_cons n rest
  have hdigits := digits?_toDigits n hrest
  have hminus : c ≠ '-' := fun h => absurd (h ▸ hc) (by decide)
  rw [hcons] at hdigits ⊢
  cases rest with
  | nil => simp [number?, hdigits, hminus, not_leading_zero, digitsValue_toDigits]
  | cons d rest =>
      obtain ⟨-, hdot, he, hE⟩ := hrest d rfl
      simp [number?, hdigits, hminus, not_leading_zero, digitsValue_toDigits, hdot, he, hE]

/-- Digits behind a minus sign are read as the opposite. -/
theorem number?_signed (n : Nat) (hrest : Ends rest) :
    number? ('-' :: (Nat.toDigits 10 n ++ rest)) = some (.int (-n), rest) := by
  have hdigits := digits?_toDigits n hrest
  generalize Nat.toDigits 10 n ++ rest = s at hdigits ⊢
  cases rest with
  | nil => simp [number?, hdigits, not_leading_zero, digitsValue_toDigits]
  | cons d rest =>
      obtain ⟨-, hdot, he, hE⟩ := hrest d rfl
      simp [number?, hdigits, not_leading_zero, digitsValue_toDigits, hdot, he, hE]

theorem toList_int_ofNat (n : Nat) : (toString (Int.ofNat n)).toList = Nat.toDigits 10 n := by
  show n.repr.toList = _
  rw [Nat.repr_eq_ofList_toDigits, String.toList_ofList]

theorem toList_int_negSucc (n : Nat) :
    (toString (Int.negSucc n)).toList = '-' :: Nat.toDigits 10 (n + 1) := by
  show ("-" ++ (n + 1).repr).toList = _
  simp [Nat.repr_eq_ofList_toDigits]

/-- A whole number is read to its last digit. -/
theorem number?_int (n : Int) (hrest : Ends rest) :
    number? ((toString n).toList ++ rest) = some (.int n, rest) := by
  cases n with
  | ofNat n => rw [toList_int_ofNat]; exact number?_unsigned n hrest
  | negSucc n => rw [toList_int_negSucc]; exact number?_signed (n + 1) hrest

/-- A whole number starts with its sign or with a digit. -/
theorem head?_int (n : Int) :
    ∃ c ∈ (toString n).toList.head?, c = '-' ∨ c.isDigit = true := by
  cases n with
  | ofNat n =>
      obtain ⟨c, tail, hcons, hc⟩ := toDigits_append_eq_cons n []
      rw [List.append_nil] at hcons
      exact ⟨c, by rw [toList_int_ofNat, hcons]; rfl, Or.inr hc⟩
  | negSucc n => exact ⟨'-', by rw [toList_int_negSucc]; rfl, Or.inl rfl⟩

theorem digit_lt {c : Char} (h : c.isDigit = true) : c.toNat < 128 := by
  have hnine : c.toNat ≤ 57 := (Char.isDigit_iff_toNat.1 h).2
  omega

/-- The text of a whole number is ASCII. -/
theorem isAscii_int (n : Int) : IsAscii (toString n).toList := by
  cases n with
  | ofNat n =>
      rw [toList_int_ofNat]
      exact fun c hc => digit_lt (isDigit_toDigits hc)
  | negSucc n =>
      rw [toList_int_negSucc]
      exact IsAscii.cons (by decide) fun c hc => digit_lt (isDigit_toDigits hc)

end ModuleAtlas.Json
