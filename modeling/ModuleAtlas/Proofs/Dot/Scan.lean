/-
A drawing as words, names and marks.

# The scan

The text is gone through character by character (`step?`). In quotes a
backslash takes the next character with it, so a name ends at the first
quote that no backslash has taken; of the escapes `\\` and `\"` the second
character is meant, every other one stands for itself.

# Texts one after the other

What a text is scanned to is a relation between where the scan stands
before and after it (`Scans`), so the scans of the parts make up the scan
of the whole (`Scans.append`). A name in quotes is one token, whatever it
holds (`scans_quoted`).
-/
import ModuleAtlas.Graph.Export

namespace ModuleAtlas.Dot

-- =============================================================== tokens

inductive Token where
  | name (text : String)
  | word (text : String)
  | arrow
  | mark (c : Char)

/-- Where the scan stands. What has been read of a word or a name is kept
with the latest character first. -/
inductive Stand where
  | between
  | word (read : List Char)
  | inside (read : List Char)
  | escaping (read : List Char)
  | dash

def wordOf (read : List Char) : Token := .word (String.ofList read.reverse)

def nameOf (read : List Char) : Token := .name (String.ofList read.reverse)

def isWordChar (c : Char) : Bool := c.isAlphanum || c == '_'

/-- A character outside words and names. -/
def begin? (c : Char) : Option (Stand × List Token) :=
  if c.isWhitespace then some (.between, [])
  else if c = '"' then some (.inside [], [])
  else if c = '-' then some (.dash, [])
  else if c ∈ ['\x7b', '\x7d', '[', ']', '=', ',', ';'] then some (.between, [.mark c])
  else if isWordChar c then some (.word [c], [])
  else none

/-- One character, with the tokens that it completes. -/
def step? : Stand → Char → Option (Stand × List Token)
  | .between, c => begin? c
  | .word read, c =>
    if isWordChar c then some (.word (c :: read), [])
    else (begin? c).map fun (stand, tokens) => (stand, wordOf read :: tokens)
  | .inside read, c =>
    if c = '"' then some (.between, [nameOf read])
    else if c = '\\' then some (.escaping read, [])
    else some (.inside (c :: read), [])
  | .escaping read, c =>
    if c = '\\' ∨ c = '"' then some (.inside (c :: read), [])
    else some (.inside (c :: '\\' :: read), [])
  | .dash, c => if c = '>' then some (.between, [.arrow]) else none

/-- All characters of a text, with the tokens that they complete. -/
def scan? (stand : Stand) : List Char → Option (Stand × List Token)
  | [] => some (stand, [])
  | c :: rest => do
    let (stand, tokens) ← step? stand c
    let (stand, more) ← scan? stand rest
    return (stand, tokens ++ more)

/-- The tokens of a text. A name has to be ended by its quote. -/
def tokens? (text : String) : Option (List Token) :=
  match scan? .between text.toList with
  | some (.between, tokens) => some tokens
  | some (.word read, tokens) => some (tokens ++ [wordOf read])
  | _ => none

-- ================================================================ scans

/-- From `stand` the text `s` is scanned to `tokens`, and the scan then
stands at `stand'`. -/
def Scans (stand : Stand) (s : List Char) (tokens : List Token) (stand' : Stand) : Prop :=
  scan? stand s = some (stand', tokens)

variable {stand stand' stand'' : Stand} {s t : List Char} {tokens more : List Token} {c : Char}

theorem Scans.nil : Scans stand [] [] stand := rfl

/-- The scan of a text after one character. -/
theorem Scans.cons (hc : step? stand c = some (stand', tokens)) (hs : Scans stand' s more stand'') :
    Scans stand (c :: s) (tokens ++ more) stand'' := by
  unfold Scans scan?
  rw [hc]
  show (scan? stand' s).bind _ = _
  rw [hs]
  rfl

theorem Scans.exists_of_cons (h : Scans stand (c :: s) tokens stand'') :
    ∃ stand' front more, step? stand c = some (stand', front) ∧ Scans stand' s more stand'' ∧
      tokens = front ++ more := by
  unfold Scans scan? at h
  cases hc : step? stand c with
  | none => rw [hc] at h; cases h
  | some next =>
      obtain ⟨stand', front⟩ := next
      rw [hc] at h
      change (scan? stand' s).bind _ = _ at h
      cases hs : scan? stand' s with
      | none => rw [hs] at h; cases h
      | some last =>
          obtain ⟨last, more⟩ := last
          rw [hs] at h
          cases h
          exact ⟨stand', front, more, rfl, hs, rfl⟩

/-- The scan of one text and of another after it. -/
theorem Scans.append (hs : Scans stand s tokens stand') (ht : Scans stand' t more stand'') :
    Scans stand (s ++ t) (tokens ++ more) stand'' := by
  induction s generalizing stand tokens with
  | nil =>
      cases hs
      exact ht
  | cons c s ih =>
      obtain ⟨_, front, middle, hc, hrest, rfl⟩ := hs.exists_of_cons
      rw [List.append_assoc]
      exact .cons hc (ih hrest)

-- ================================================================ names

/-- A character as it stands in quotes. -/
def inQuotes (c : Char) : List Char := if c = '\\' ∨ c = '"' then ['\\', c] else [c]

theorem toList_escape (name : String) : (escape name).toList = name.toList.flatMap inQuotes :=
  String.toList_ofList

/-- Every `c` of the text replaced. -/
def replace (c : Char) (new s : List Char) : List Char :=
  s.flatMap fun d => if d = c then new else [d]

/-- A name is put in quotes by two replacements, that of the backslashes
first: the other way round, those before the quotes would be doubled. -/
theorem toList_escape_eq_replace (name : String) :
    (escape name).toList = replace '"' ['\\', '"'] (replace '\\' ['\\', '\\'] name.toList) := by
  have hchar : ∀ c, inQuotes c =
      replace '"' ['\\', '"'] (if c = '\\' then ['\\', '\\'] else [c]) := by
    intro c
    unfold inQuotes
    by_cases hslash : c = '\\'
    · subst hslash
      rfl
    · by_cases hquote : c = '"'
      · subst hquote
        rfl
      · simp [replace, hslash, hquote]
  rw [toList_escape, funext hchar, replace, replace, List.flatMap_assoc]
  rfl

/-- A character as it stands in quotes is read as that character. -/
theorem scans_inQuotes (read : List Char) (c : Char) :
    Scans (.inside read) (inQuotes c) [] (.inside (c :: read)) := by
  unfold inQuotes
  by_cases hc : c = '\\' ∨ c = '"'
  · rw [if_pos hc]
    have hescape : step? (.inside read) '\\' = some (.escaping read, []) := rfl
    have hmeant : step? (.escaping read) c = some (.inside (c :: read), []) := if_pos hc
    exact .cons hescape (.cons hmeant .nil)
  · rw [if_neg hc]
    have hplain : step? (.inside read) c = some (.inside (c :: read), []) :=
      (if_neg fun h => hc (Or.inr h)).trans (if_neg fun h => hc (Or.inl h))
    exact .cons hplain .nil

theorem scans_flatMap_inQuotes (read s : List Char) :
    Scans (.inside read) (s.flatMap inQuotes) [] (.inside (s.reverse ++ read)) := by
  induction s generalizing read with
  | nil => exact .nil
  | cons c s ih =>
      rw [List.flatMap_cons, List.reverse_cons, List.append_assoc]
      exact (scans_inQuotes read c).append (ih (c :: read))

/-- A name in quotes is read as that name. -/
theorem scans_quoted (name : String) : Scans .between (quoted name).toList [.name name] .between := by
  have hopen : Scans .between ['"'] [] (.inside []) := rfl
  have hname := scans_flatMap_inQuotes [] name.toList
  have hclose : Scans (.inside (name.toList.reverse ++ [])) ['"'] [.name name] .between := by
    unfold Scans
    show some (Stand.between, [nameOf (name.toList.reverse ++ [])] ++ []) = _
    rw [List.append_nil, List.append_nil, nameOf, List.reverse_reverse, String.ofList_toList]
  have htext : (quoted name).toList = ['"'] ++ (name.toList.flatMap inQuotes ++ ['"']) := by
    simp [quoted, toList_escape]
  rw [htext]
  exact hopen.append (hname.append hclose)

example : tokens? "\"a\\\\\" -> \"\\\" -> \\\"\"" = some [.name "a\\", .arrow, .name "\" -> \""] :=
  rfl

end ModuleAtlas.Dot
