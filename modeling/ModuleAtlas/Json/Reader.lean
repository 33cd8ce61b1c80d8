/-
Reading JSON text.

`Json.read?` accepts the standard grammar and nothing else. The nesting
it follows is bounded by the length of the text, which no text exceeds:
each level takes a bracket of its own. A surrogate escape without its
partner stands for no character and is read as U+FFFD.
-/
import ModuleAtlas.Json

namespace ModuleAtlas.Json

-- ============================================================= strings

def hexValue? (c : Char) : Option Nat :=
  if '0' ≤ c ∧ c ≤ '9' then some (c.toNat - '0'.toNat)
  else if 'a' ≤ c ∧ c ≤ 'f' then some (c.toNat - 'a'.toNat + 10)
  else if 'A' ≤ c ∧ c ≤ 'F' then some (c.toNat - 'A'.toNat + 10)
  else none

/-- The UTF-16 unit written by four hexadecimal digits. -/
def unit? (a b c d : Char) : Option Nat := do
  return ((← hexValue? a) * 16 + (← hexValue? b)) * 256 + (← hexValue? c) * 16 + (← hexValue? d)

/-- The character that a letter after a backslash stands for. -/
def letterEscape? (c : Char) : Option Char :=
  if c = '"' then some '"'
  else if c = '\\' then some '\\'
  else if c = '/' then some '/'
  else if c = 'n' then some '\n'
  else if c = 'r' then some '\r'
  else if c = 't' then some '\t'
  else if c = 'b' then some '\x08'
  else if c = 'f' then some '\x0c'
  else none

/-- The character of one UTF-16 unit outside a pair. -/
def unitChar (n : Nat) : Char :=
  if 0xd800 ≤ n ∧ n < 0xe000 then '\ufffd' else Char.ofNat n

/-- Reads the rest of a string, after its opening quote. `read` holds the
characters met so far, the latest first. -/
def stringBody? (read : List Char) : (fuel : Nat) → List Char → Option (List Char × List Char)
  | 0, _ => none
  | _ + 1, [] => none
  | _ + 1, '"' :: rest => some (read.reverse, rest)
  | fuel + 1, '\\' :: 'u' :: a :: b :: c :: d :: rest =>
    match unit? a b c d with
    | none => none
    | some high =>
      match pairedUnit? high rest with
      | some (c, rest) => stringBody? (c :: read) fuel rest
      | none => stringBody? (unitChar high :: read) fuel rest
  | fuel + 1, '\\' :: e :: rest =>
    match letterEscape? e with
    | none => none
    | some c => stringBody? (c :: read) fuel rest
  | fuel + 1, c :: rest =>
    if c.toNat < 0x20 ∨ c = '\\' then none else stringBody? (c :: read) fuel rest
where
  /-- The character of a pair, if `high` begins one and the text goes on
  with the escape of its partner. -/
  pairedUnit? (high : Nat) : List Char → Option (Char × List Char)
    | '\\' :: 'u' :: a :: b :: c :: d :: rest => do
      let low ← unit? a b c d
      if 0xd800 ≤ high ∧ high < 0xdc00 ∧ 0xdc00 ≤ low ∧ low < 0xe000 then
        return (Char.ofNat (0x10000 + (high - 0xd800) * 1024 + (low - 0xdc00)), rest)
      else none
    | _ => none

-- ============================================================= numbers

/-- The digits at the front of a text, of which there must be one. -/
def digits? (s : List Char) : Option (List Char × List Char) :=
  match s.span Char.isDigit with
  | ([], _) => none
  | (ds, rest) => some (ds, rest)

/-- The value of decimal digits. -/
def digitsValue (ds : List Char) : Nat :=
  ds.foldl (fun n d => n * 10 + (d.toNat - '0'.toNat)) 0

/-- Reads a number. -/
def number? (s : List Char) : Option (Json × List Char) := do
  let (sign, s) : List Char × List Char := match s with
    | '-' :: rest => (['-'], rest)
    | _ => ([], s)
  let (whole, rest) ← digits? s
  if 1 < whole.length ∧ whole.head? = some '0' then failure
  let (fraction, rest) ← match rest with
    | '.' :: rest => do
      let (ds, rest) ← digits? rest
      pure ('.' :: ds, rest)
    | _ => pure (([], rest) : List Char × List Char)
  let (exponent, rest) ← match rest with
    | e :: rest' =>
      if e = 'e' ∨ e = 'E' then do
        let (mark, rest') : List Char × List Char := match rest' with
          | '+' :: rest' => (['+'], rest')
          | '-' :: rest' => (['-'], rest')
          | _ => ([], rest')
        let (ds, rest') ← digits? rest'
        pure (e :: mark ++ ds, rest')
      else pure (([], rest) : List Char × List Char)
    | [] => pure ([], rest)
  if fraction.isEmpty ∧ exponent.isEmpty then
    let n : Int := digitsValue whole
    return (.int (if sign.isEmpty then n else -n), rest)
  else
    return (.number (String.ofList (sign ++ whole ++ fraction ++ exponent)), rest)

-- ============================================================== values

/-- The text without the blanks at its front. -/
def skipBlanks : List Char → List Char
  | c :: rest => if c = ' ' ∨ c = '\n' ∨ c = '\r' ∨ c = '\t' then skipBlanks rest else c :: rest
  | [] => []

mutual

/-- Reads a value at the front of a text that starts with no blank. -/
def valueUpTo : (fuel : Nat) → List Char → Option (Json × List Char)
  | 0, _ => none
  | fuel + 1, s =>
    match s with
    | 'n' :: 'u' :: 'l' :: 'l' :: rest => some (.null, rest)
    | 't' :: 'r' :: 'u' :: 'e' :: rest => some (.bool true, rest)
    | 'f' :: 'a' :: 'l' :: 's' :: 'e' :: rest => some (.bool false, rest)
    | '"' :: rest => do
      let (text, rest) ← stringBody? [] (rest.length + 1) rest
      return (.str (String.ofList text), rest)
    | '[' :: rest =>
      match skipBlanks rest with
      | ']' :: rest => some (.arr [], rest)
      | rest => do
        let (item, rest) ← valueUpTo fuel rest
        let (items, rest) ← itemsUpTo fuel rest
        return (.arr (item :: items), rest)
    | '\x7b' :: rest =>
      match skipBlanks rest with
      | '\x7d' :: rest => some (.obj [], rest)
      | rest => do
        let (member, rest) ← memberUpTo fuel rest
        let (members, rest) ← membersUpTo fuel rest
        return (.obj (member :: members), rest)
    | _ => number? s

/-- Reads the items after the first of an array, and its end. -/
def itemsUpTo : (fuel : Nat) → List Char → Option (List Json × List Char)
  | 0, _ => none
  | fuel + 1, s =>
    match skipBlanks s with
    | ']' :: rest => some ([], rest)
    | ',' :: rest => do
      let (item, rest) ← valueUpTo fuel (skipBlanks rest)
      let (items, rest) ← itemsUpTo fuel rest
      return (item :: items, rest)
    | _ => none

/-- Reads one member of an object. -/
def memberUpTo : (fuel : Nat) → List Char → Option ((String × Json) × List Char)
  | 0, _ => none
  | fuel + 1, s =>
    match s with
    | '"' :: rest => do
      let (key, rest) ← stringBody? [] (rest.length + 1) rest
      match skipBlanks rest with
      | ':' :: rest => do
        let (value, rest) ← valueUpTo fuel (skipBlanks rest)
        return ((String.ofList key, value), rest)
      | _ => none
    | _ => none

/-- Reads the members after the first of an object, and its end. -/
def membersUpTo : (fuel : Nat) → List Char → Option (List (String × Json) × List Char)
  | 0, _ => none
  | fuel + 1, s =>
    match skipBlanks s with
    | '\x7d' :: rest => some ([], rest)
    | ',' :: rest => do
      let (member, rest) ← memberUpTo fuel (skipBlanks rest)
      let (members, rest) ← membersUpTo fuel rest
      return (member :: members, rest)
    | _ => none

end

/-- The value that a text spells, with blanks allowed around it. -/
def read? (text : String) : Option Json :=
  let s := text.toList
  match valueUpTo (2 * s.length + 2) (skipBlanks s) with
  | some (value, rest) => if (skipBlanks rest).isEmpty then some value else none
  | none => none

end ModuleAtlas.Json
