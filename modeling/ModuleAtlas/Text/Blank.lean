/-
Blank characters and line ends.

Both sets are those of the Unicode standard: the characters of the
property White_Space together with the four information separators
U+001C to U+001F, and among them the ones that end a line.
-/

namespace ModuleAtlas.Text

/-- A character that shows nothing and may be trimmed. -/
def isBlank (c : Char) : Bool :=
  let n := c.toNat
  (0x09 ≤ n && n ≤ 0x0d) || (0x1c ≤ n && n ≤ 0x20) || n == 0x85 || n == 0xa0 || n == 0x1680 ||
    (0x2000 ≤ n && n ≤ 0x200a) || n == 0x2028 || n == 0x2029 || n == 0x202f || n == 0x205f ||
    n == 0x3000

/-- A character that ends a line. -/
def isLineEnd (c : Char) : Bool :=
  let n := c.toNat
  (0x0a ≤ n && n ≤ 0x0d) || (0x1c ≤ n && n ≤ 0x1e) || n == 0x85 || n == 0x2028 || n == 0x2029

/-- The text without the blank characters at its two ends. -/
def trim (s : List Char) : List Char :=
  ((s.dropWhile isBlank).reverse.dropWhile isBlank).reverse

/-- The text up to its first line end. -/
def firstLine (s : List Char) : List Char :=
  s.takeWhile fun c => !isLineEnd c

end ModuleAtlas.Text
