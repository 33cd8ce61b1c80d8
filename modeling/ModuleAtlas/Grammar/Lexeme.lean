/-
The tokens of source texts: for each shape, where one that starts at an
index ends (`Lexeme.end?`).

# Words

No word is reserved everywhere. A word is a keyword where a rule asks
for it, and a name where a rule asks for a name; a rule that can take
either says which words are no names there.

# Signs

Where a sign is asked for, a longer one that begins with it is another
sign, as `==` is not `=` twice. Brackets of types are the exception: two
`>` in a row may close two of them.
-/
import ModuleAtlas.Grammar.Text

namespace ModuleAtlas.Grammar

-- =============================================================== shapes

/-- What a token may look like. -/
inductive Lexeme where
  /-- Just these characters, whatever follows. -/
  | sign (text : String)
  /-- This operator, not a part of a longer one. -/
  | operator (text : String)
  /-- The question mark of a condition. -/
  | question
  | word (text : String)
  /-- A name that is none of these words. -/
  | name (except : List String)
  | privateName
  | string
  | number
  | regex
  | regexFlags
  /-- Characters of a template literal, escapes among them. -/
  | templateText
  /-- The rest of a line. -/
  | line
  /-- A name in markup, where hyphens may join its parts. -/
  | markupName
  | markupString
  | markupText
  deriving Repr, DecidableEq

namespace Text

variable (t : Text)

-- ================================================================ names

/-- The end of the escape of one character by its number, the backslash
already read. -/
def unicodeEscapeEnd? (i : Nat) : Option Nat :=
  if t.char i != 'u' then none
  else if t.char (i + 1) == '\x7b' then
    let j := t.skipWhile isHexDigit (i + 2)
    if i + 2 < j && t.char j == '\x7d' then some (j + 1) else none
  else if (List.range 4).all fun k => isHexDigit (t.char (i + 1 + k)) then some (i + 5)
  else none

/-- The end of a name that goes on at an index. -/
def nameEnd (i : Nat) : Nat :=
  go (t.size - i) i
where
  go : (fuel : Nat) → Nat → Nat
    | 0, i => i
    | fuel + 1, i =>
      let i := t.skipWhile isNamePart i
      if t.char i != '\\' then i
      else
        match t.unicodeEscapeEnd? (i + 1) with
        | some j => go fuel j
        | none => i

/-- The end of the name that starts at an index. -/
def nameEnd? (i : Nat) : Option Nat :=
  if isDigit (t.char i) then none
  else
    let j := t.nameEnd i
    if i < j then some j else none

-- ============================================================== escapes

/-- The end of an escape sequence, the backslash already read. -/
def escapeEnd? (i : Nat) : Option Nat :=
  let c := t.char i
  if t.size ≤ i then none
  else if c == 'x' then
    if isHexDigit (t.char (i + 1)) && isHexDigit (t.char (i + 2)) then some (i + 3) else none
  else if c == 'u' then t.unicodeEscapeEnd? i
  else if c == '\r' && t.char (i + 1) == '\n' then some (i + 2)
  else some (i + 1)

/-- The end of a string literal, its opening quote already read. A line
end may stand only right before the closing quote, but for blanks and
comments. -/
def stringEnd? (quote : Char) (i : Nat) : Option Nat :=
  go (t.size - i) i
where
  go : (fuel : Nat) → Nat → Option Nat
    | 0, _ => none
    | fuel + 1, i =>
      let c := t.char i
      if c == quote then some (i + 1)
      else if c == '\\' then (t.escapeEnd? (i + 1)).bind (go fuel)
      else if c == '\n' || c == '\r' then
        let j := t.skipWhile isSpace i
        if t.char j == quote then some (j + 1)
        else (t.commentEnd? j).bind (go fuel)
      else go fuel (i + 1)

/-- The end of the characters of a template literal: the next
substitution or the end of the literal. -/
def templateTextEnd? (i : Nat) : Option Nat :=
  go (t.size - i) i
where
  go : (fuel : Nat) → Nat → Option Nat
    | 0, _ => none
    | fuel + 1, i =>
      let c := t.char i
      if c == '\x60' || (c == '$' && t.char (i + 1) == '\x7b') then some i
      else if c == '\\' then (t.escapeEnd? (i + 1)).bind (go fuel)
      else go fuel (i + 1)

-- ============================================================== numbers

/-- The end of a run of digits in which single underscores may stand. -/
def digitsEnd (isDigit : Char → Bool) (i : Nat) : Nat :=
  go (t.size - i) i
where
  go : (fuel : Nat) → Nat → Nat
    | 0, i => i
    | fuel + 1, i =>
      let j := t.skipWhile isDigit i
      if i < j && t.char j == '_' && isDigit (t.char (j + 1)) then go fuel (j + 1) else j

/-- The end of the exponent at an index, or the index. -/
def exponentEnd (i : Nat) : Nat :=
  if t.char i == 'e' || t.char i == 'E' then
    let j := if t.char (i + 1) == '+' || t.char (i + 1) == '-' then i + 2 else i + 1
    let k := t.digitsEnd isDigit j
    if j < k then k else i
  else i

/-- The end of a number in the base that the letter behind its zero
tells. -/
def basedEnd? (i : Nat) : Option Nat := do
  let isDigit ← match (t.char i).toLower with
    | 'x' => some isHexDigit
    | 'o' => some fun c => '0' ≤ c && c ≤ '7'
    | 'b' => some fun c => c == '0' || c == '1'
    | _ => none
  let j := t.digitsEnd isDigit (i + 1)
  if i + 1 < j then return if t.char j == 'n' then j + 1 else j
  none

/-- The end of the number that starts at an index. -/
def numberEnd? (i : Nat) : Option Nat :=
  let j := t.digitsEnd isDigit i
  let based := if t.char i == '0' then t.basedEnd? (i + 1) else none
  match based with
  | some k => some k
  | none =>
    if i < j then
      if t.char j == 'n' then some (j + 1)
      else if t.char j == '.' then some (t.exponentEnd (t.digitsEnd isDigit (j + 1)))
      else some (t.exponentEnd j)
    else if t.char i == '.' && isDigit (t.char (i + 1)) then
      some (t.exponentEnd (t.digitsEnd isDigit (i + 1)))
    else none

-- =============================================================== others

/-- The end of the regular expression that starts at an index, with the
slash behind it. A slash in a class of characters does not end it. -/
def regexEnd? (i : Nat) : Option Nat :=
  if t.char i == '/' && t.char (i + 1) != '/' then go (t.size - i) false (i + 1) else none
where
  go : (fuel : Nat) → (inClass : Bool) → Nat → Option Nat
    | 0, _, _ => none
    | fuel + 1, inClass, i =>
      let c := t.char i
      if t.size ≤ i || c == '\n' then none
      else if c == '\\' then
        if t.size ≤ i + 1 || t.char (i + 1) == '\n' then none else go fuel inClass (i + 2)
      else if inClass then go fuel (c != ']') (i + 1)
      else if c == '/' then some (i + 1)
      else go fuel (c == '[') (i + 1)

/-- The end of the reference to a character by name or number. -/
def referenceEnd? (i : Nat) : Option Nat :=
  if t.char i != '&' then none
  else
    let ended := fun (isPart : Char → Bool) (most first : Nat) =>
      let j := t.skipWhile isPart first
      if first < j && j ≤ first + most && t.char j == ';' then some (j + 1) else none
    if t.char (i + 1) != '#' then ended Char.isAlpha 30 (i + 1)
    else if (t.char (i + 2)).toLower == 'x' then ended isHexDigit 6 (i + 3)
    else ended isDigit 5 (i + 2)

/-- The end of text between markup tags. -/
def markupTextEnd? (i : Nat) : Option Nat :=
  let j := go (t.size - i) i
  if i < j then some j else none
where
  go : (fuel : Nat) → Nat → Nat
    | 0, i => i
    | fuel + 1, i =>
      let j := t.skipWhile (fun c => !(['<', '>', '\x7b', '\x7d', '&'].contains c)) i
      match t.referenceEnd? j with
      | some k => go fuel k
      | none => j

/-- The end of the name of a tag or an attribute. -/
def markupNameEnd? (i : Nat) : Option Nat :=
  (t.nameEnd? i).map (t.skipWhile fun c => isNamePart c || c == '-')

end Text

-- ============================================================ operators

/-- The operators that begin with one another somewhere. -/
def operators : List String := [
  "=", "==", "===", "=>", "!", "!=", "!==", "+", "++", "+=", "-", "--", "-=", "*", "**", "*=", "**=",
  "/", "/=", "%", "%=", "<", "<=", "<<", "<<=", ">", ">=", ">>", ">>>", ">>=", ">>>=",
  "&", "&&", "&=", "&&=", "|", "||", "|=", "||=", "^", "^=", "?", "??", "??=", "?.", ".", "..."]

/-- Whether this operator stands at an index, and no longer one that
begins with it. -/
def Text.hasOperator (t : Text) (i : Nat) (text : String) : Bool :=
  t.goesOn i text.toList &&
    !operators.any fun s => text.length < s.length && t.goesOn i s.toList

/-- The end of the token of this shape that starts at an index, if one
does. -/
def Lexeme.end? (t : Text) (i : Nat) : Lexeme → Option Nat
  | sign s => if t.goesOn i s.toList then some (i + s.length) else none
  | operator s => if t.hasOperator i s then some (i + s.length) else none
  | question =>
    if t.char i != '?' || t.char (i + 1) == '?' then none
    else if t.char (i + 1) == '.' && !Text.isDigit (t.char (i + 2)) then none
    else some (i + 1)
  | word s =>
    if t.goesOn i s.toList && t.nameEnd i == i + s.length then some (i + s.length) else none
  | name except =>
    (t.nameEnd? i).bind fun j => if t.between i j ∈ except then none else some j
  | privateName => if t.char i == '#' then t.nameEnd? (i + 1) else none
  | string =>
    if t.char i == '"' || t.char i == '\'' then t.stringEnd? (t.char i) (i + 1) else none
  | number => t.numberEnd? i
  | regex => t.regexEnd? i
  | regexFlags =>
    let j := t.skipWhile (fun c => 'a' ≤ c && c ≤ 'z') i
    if i < j then some j else none
  | templateText => (t.templateTextEnd? i).bind fun j => if i < j then some j else none
  | line => some (t.skipWhile (fun c => !Text.isLineTerminator c) i)
  | markupName => t.markupNameEnd? i
  | markupString =>
    let quote := t.char i
    if quote == '"' || quote == '\'' then
      let j := t.skipWhile (· != quote) (i + 1)
      if j < t.size then some (j + 1) else none
    else none
  | markupText => t.markupTextEnd? i

end ModuleAtlas.Grammar
