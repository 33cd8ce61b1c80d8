/-
A text in quotes, with everything that is not shown written as an
escape.

The quotes are single ones unless the text holds a single quote and no
double one. Inside, the quote itself and the backslash take a backslash;
tab and the two line ends are written by a letter; any other character
that is not shown by two, four or eight lower-case hexadecimal digits.
-/
import ModuleAtlas.Text.Printable

namespace ModuleAtlas.Text

/-- The last `width` lower-case hexadecimal digits of `n`. -/
def hexDigits : (width n : Nat) → List Char
  | 0, _ => []
  | width + 1, n =>
    let d := n % 16
    hexDigits width (n / 16) ++ [if d < 10 then Char.ofNat ('0'.toNat + d) else Char.ofNat ('a'.toNat + d - 10)]

/-- A character as it stands between two `quote`s. -/
def shown (quote c : Char) : List Char :=
  if c = quote ∨ c = '\\' then ['\\', c]
  else if c = '\n' then ['\\', 'n']
  else if c = '\r' then ['\\', 'r']
  else if c = '\t' then ['\\', 't']
  else if isPrintable c then [c]
  else if c.toNat ≤ 0xff then '\\' :: 'x' :: hexDigits 2 c.toNat
  else if c.toNat ≤ 0xffff then '\\' :: 'u' :: hexDigits 4 c.toNat
  else '\\' :: 'U' :: hexDigits 8 c.toNat

/-- The text in quotes. -/
def quoted (s : String) : String :=
  let quote := if s.toList.contains '\'' && !s.toList.contains '"' then '"' else '\''
  String.ofList (quote :: (s.toList.flatMap (shown quote) ++ [quote]))

end ModuleAtlas.Text
