/-
JSON values and their text.

# Values

An object is a list of members in order, since the order in which files
were met is part of what an export says. A number is an integer of any
size or, if it has a fraction or an exponent, the text it is written
with.

# Text

The text is ASCII: a character outside the printable range is written by
its UTF-16 units in lower-case hexadecimal, five of them by a letter.
`Layout` decides what stands between the items of an array or object;
an empty one is written without anything inside in every layout.
-/
import ModuleAtlas.Text.Split

namespace ModuleAtlas

inductive Json where
  | null
  | bool (value : Bool)
  | int (value : Int)
  | number (text : String)
  | str (value : String)
  | arr (items : List Json)
  | obj (members : List (String × Json))

namespace Json

-- ============================================================= strings

/-- The lower-case hexadecimal digit of a number below sixteen. -/
def hexDigit (n : Nat) : Char :=
  if n < 10 then Char.ofNat ('0'.toNat + n) else Char.ofNat ('a'.toNat + (n - 10))

/-- A UTF-16 unit as an escape of four digits. -/
def unitEscape (n : Nat) : List Char :=
  ['\\', 'u', hexDigit (n / 4096 % 16), hexDigit (n / 256 % 16), hexDigit (n / 16 % 16),
    hexDigit (n % 16)]

/-- A character as it stands inside quotes. -/
def escape (c : Char) : List Char :=
  if c = '"' then ['\\', '"']
  else if c = '\\' then ['\\', '\\']
  else if c = '\n' then ['\\', 'n']
  else if c = '\r' then ['\\', 'r']
  else if c = '\t' then ['\\', 't']
  else if c = '\x08' then ['\\', 'b']
  else if c = '\x0c' then ['\\', 'f']
  else if 0x20 ≤ c.toNat ∧ c.toNat ≤ 0x7e then [c]
  else if c.toNat < 0x10000 then unitEscape c.toNat
  else
    let n := c.toNat - 0x10000
    unitEscape (0xd800 + n / 1024) ++ unitEscape (0xdc00 + n % 1024)

/-- A text in quotes. -/
def quoted (s : String) : String :=
  String.ofList ('"' :: (s.toList.flatMap escape ++ ['"']))

-- ============================================================== layout

/-- How items are set out: all on one line, or one to a line, each level
indented by so many blanks. -/
inductive Layout where
  | line
  | block (indent : Nat)

namespace Layout

/-- What stands between an opening bracket at this depth and its first
item. -/
def opening : Layout → Nat → String
  | .line, _ => ""
  | .block n, depth => "\n" ++ String.ofList (List.replicate (n * (depth + 1)) ' ')

/-- What stands between two items. -/
def between : Layout → Nat → String
  | .line, _ => ", "
  | .block n, depth => "," ++ opening (.block n) depth

/-- What stands between the last item and the closing bracket. -/
def closing : Layout → Nat → String
  | .line, _ => ""
  | .block n, depth => "\n" ++ String.ofList (List.replicate (n * depth) ' ')

end Layout

-- ================================================================ text

mutual

/-- The text of a value whose opening bracket stands at `depth`. -/
def renderAt (layout : Layout) (depth : Nat) : Json → String
  | null => "null"
  | bool true => "true"
  | bool false => "false"
  | int n => toString n
  | number text => text
  | str s => quoted s
  | arr [] => "[]"
  | arr (item :: items) =>
    "[" ++ layout.opening depth ++ renderAt layout (depth + 1) item ++
      renderItems layout depth items ++ layout.closing depth ++ "]"
  | obj [] => "\x7b\x7d"
  | obj (member :: members) =>
    "\x7b" ++ layout.opening depth ++ renderMember layout depth member ++
      renderMembers layout depth members ++ layout.closing depth ++ "\x7d"

/-- The items after the first of an array. -/
def renderItems (layout : Layout) (depth : Nat) : List Json → String
  | [] => ""
  | item :: items =>
    layout.between depth ++ renderAt layout (depth + 1) item ++ renderItems layout depth items

/-- One member of an object. -/
def renderMember (layout : Layout) (depth : Nat) : String × Json → String
  | (key, value) => quoted key ++ ": " ++ renderAt layout (depth + 1) value

/-- The members after the first of an object. -/
def renderMembers (layout : Layout) (depth : Nat) : List (String × Json) → String
  | [] => ""
  | member :: members =>
    layout.between depth ++ renderMember layout depth member ++ renderMembers layout depth members

end

/-- The text of a value. -/
def render (layout : Layout) (value : Json) : String :=
  renderAt layout 0 value

end Json

end ModuleAtlas
