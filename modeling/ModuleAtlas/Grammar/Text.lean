/-
Source texts as the grammar reads them: characters with their places,
and what may stand between two tokens.

Reading past the end gives NUL, which no source text holds, so no rule
has to ask whether the text is over. Between tokens there may be blanks,
line ends and comments; the comments are nodes of the tree like any
other.
-/
import ModuleAtlas.Syntax.Node

namespace ModuleAtlas.Grammar

open Syntax

-- =============================================================== places

/-- Where a character stands in the bytes and in the lines. -/
structure Place where
  offset : Nat
  point : Point
  deriving Repr, DecidableEq

/-- The place behind one character more. -/
def Place.after (p : Place) (piece : Text.Utf8.Piece) : Place where
  offset := p.offset + piece.width
  point := if piece.char = '\n' then ⟨p.point.row + 1, 0⟩
    else ⟨p.point.row, p.point.column + piece.width⟩

/-- The characters, and the place of each and of the end. -/
structure Text where
  chars : Array Char
  places : Array Place

namespace Text

/-- The text that the bytes spell. -/
def ofBytes (bytes : Bytes) : Text :=
  let start : Place := ⟨0, ⟨0, 0⟩⟩
  let (t, _) := (Text.Utf8.pieces bytes).foldl (fun (t, p) piece =>
    let p := Place.after p piece
    (Text.mk (t.chars.push piece.char) (t.places.push p), p)) (Text.mk #[] #[start], start)
  t

def size (t : Text) : Nat := t.chars.size

/-- The character at an index; NUL behind the end. -/
def char (t : Text) (i : Nat) : Char := t.chars.getD i '\x00'

/-- The place at an index; that of the end behind it. -/
def place (t : Text) (i : Nat) : Place :=
  t.places.getD i (t.places.back?.getD ⟨0, ⟨0, 0⟩⟩)

/-- Whether the text goes on with these characters. -/
def goesOn (t : Text) (i : Nat) : List Char → Bool
  | [] => true
  | c :: cs => t.char i == c && goesOn t (i + 1) cs

/-- The first index from `i` on whose character is not in the class. -/
def skipWhile (t : Text) (inClass : Char → Bool) (i : Nat) : Nat :=
  if h : i < t.chars.size then
    if inClass t.chars[i] then skipWhile t inClass (i + 1) else i
  else i
termination_by t.chars.size - i

/-- The characters from one index to another. -/
def between (t : Text) (i j : Nat) : String :=
  String.ofList (t.chars.extract i j).toList

-- ============================================================== classes

/-- A character that may stand between tokens. -/
def isSpace (c : Char) : Bool :=
  let n := c.toNat
  (0x09 ≤ n && n ≤ 0x0d) || n == 0x20 || n == 0x85 || n == 0xa0 || n == 0x1680 ||
    (0x2000 ≤ n && n ≤ 0x200b) || n == 0x2028 || n == 0x2029 || n == 0x202f || n == 0x205f ||
    n == 0x2060 || n == 0x3000 || n == 0xfeff

/-- A blank after which the end of a statement is still looked for. The
blanks that forbid a line break are none of them. -/
def isBreakableSpace (c : Char) : Bool :=
  let n := c.toNat
  (0x09 ≤ n && n ≤ 0x0d) || n == 0x20 || n == 0x1680 || (0x2000 ≤ n && n ≤ 0x2006) ||
    (0x2008 ≤ n && n ≤ 0x200a) || n == 0x2028 || n == 0x2029 || n == 0x205f || n == 0x3000

def isLineTerminator (c : Char) : Bool :=
  c == '\n' || c == '\r' || c == '\u2028' || c == '\u2029'

def isDigit (c : Char) : Bool := '0' ≤ c && c ≤ '9'

def isHexDigit (c : Char) : Bool :=
  isDigit c || ('a' ≤ c && c ≤ 'f') || ('A' ≤ c && c ≤ 'F')

/-- A character that a name can go on with. Whatever is no sign, no
blank and no control character will do. -/
def isNamePart (c : Char) : Bool :=
  if c.toNat < 0x80 then
    ('a' ≤ c && c ≤ 'z') || ('A' ≤ c && c ≤ 'Z') || isDigit c || c == '_' || c == '$' || c == '\x7f'
  else !isSpace c

-- ============================================================== between

/-- The end of the comment that starts at an index, if one does and it
is closed. -/
def commentEnd? (t : Text) (i : Nat) : Option Nat :=
  if t.char i == '/' && t.char (i + 1) == '/' then
    some (t.skipWhile (fun c => !isLineTerminator c) (i + 2))
  else if t.char i == '/' && t.char (i + 1) == '*' then closeFrom (t.size - i) (i + 2)
  else none
where
  closeFrom : (fuel : Nat) → Nat → Option Nat
    | 0, _ => none
    | fuel + 1, j =>
      let j := t.skipWhile (· != '*') j
      if t.size ≤ j then none
      else if t.char (j + 1) == '/' then some (j + 2)
      else closeFrom fuel (j + 1)

/-- A node of one token. -/
def leaf (t : Text) (kind : Kind) (named : Bool) (i j : Nat) : Syntax.Node :=
  .node {
    kind := kind, role := none, named := named, mark := .sound
    start := (t.place i).offset, stop := (t.place j).offset
    place := (t.place i).point, trouble := none } []

/-- The index of the next token, and the comments before it. -/
def nextToken (t : Text) (i : Nat) : Nat × List Syntax.Node :=
  go (t.size + 1 - i) i
where
  go : (fuel : Nat) → Nat → Nat × List Syntax.Node
    | 0, i => (i, [])
    | fuel + 1, i =>
      let i := t.skipWhile isSpace i
      match t.commentEnd? i with
      | none => (i, [])
      | some j =>
        let (k, comments) := go fuel j
        (k, t.leaf (.other "comment") true i j :: comments)

/-- Whether a line ends before the next token, outside of comments. -/
def breaksLine (t : Text) (i : Nat) : Bool :=
  go (t.size + 1 - i) i
where
  go : (fuel : Nat) → Nat → Bool
    | 0, _ => false
    | fuel + 1, i =>
      let j := t.skipWhile (fun c => isSpace c && c != '\n') i
      if t.char j == '\n' then true
      else
        match t.commentEnd? j with
        | none => false
        | some k => go fuel k

end Text

end ModuleAtlas.Grammar
