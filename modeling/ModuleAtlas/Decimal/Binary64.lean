/-
Quotients of whole numbers as binary64 numbers, and their decimal text.

# Rounding

A mean is the binary64 number nearest to a quotient of two whole
numbers, then the binary64 number nearest to it with a given number of
decimal places. Both roundings are exact: they work on the numerator and
the denominator, and a half goes to the even neighbour (`roundDiv`).

# Text

The text has the fewest digits that read back as the same number, and
of those the nearest ones. Whether a decimal reads back is decided by
the interval of reals that round to the number: it reaches half way to
both neighbours, and its ends belong to it if the number's own last bit
is zero. The point stands inside the digits up to 10^16, and at least
one digit follows it.
-/

namespace ModuleAtlas

/-- `num / den` rounded to a whole number, a half to the even one. -/
def roundDiv (num den : Nat) : Nat :=
  let q := num / den
  let r := num % den
  if 2 * r < den then q
  else if den < 2 * r then q + 1
  else if q % 2 = 0 then q else q + 1

/-- A number of the format: a sign and `mantissa * 2 ^ exponent`, the
mantissa below 2^53. -/
structure Binary64 where
  negative : Bool
  mantissa : Nat
  exponent : Int
  deriving Repr, DecidableEq

namespace Binary64

def zero : Binary64 := ⟨false, 0, 0⟩

/-- The number below which every mantissa is: 2^53. -/
def mantissaEnd : Nat := 0x20000000000000

/-- The numerator and denominator of `n * 2 ^ e`. -/
def scale (n : Nat) (e : Int) : Nat × Nat :=
  if 0 ≤ e then (n * Nat.pow 2 e.toNat, 1) else (n, Nat.pow 2 (-e).toNat)

/-- The number nearest to `num / den`, for positive parts and a quotient
that the format reaches. The mantissa is given its 53 bits. -/
def ofRatio (negative : Bool) (num den : Nat) : Binary64 :=
  if num = 0 ∨ den = 0 then ⟨negative, 0, 0⟩
  else
    let guess : Int := (num.log2 : Int) - den.log2 - 53
    let rounded := fun (e : Int) =>
      if 0 ≤ e then roundDiv num (den * Nat.pow 2 e.toNat)
      else roundDiv (num * Nat.pow 2 (-e).toNat) den
    let e := if rounded guess ≤ mantissaEnd then guess else guess + 1
    let m := rounded e
    if m = mantissaEnd then ⟨negative, mantissaEnd / 2, e + 1⟩ else ⟨negative, m, e⟩

/-- The quotient of a whole number by a count. -/
def ofQuotient (total : Int) (count : Nat) : Binary64 :=
  ofRatio (total < 0) total.natAbs count

/-- The number nearest to `x` rounded to `places` decimal places. -/
def roundTo (places : Nat) (x : Binary64) : Binary64 :=
  let (num, den) := scale x.mantissa x.exponent
  ofRatio x.negative (roundDiv (num * Nat.pow 10 places) den) (Nat.pow 10 places)

-- ================================================================ text

/-- Whether the decimal `digits * 10 ^ power` reads back as `x`. -/
def readsBack (x : Binary64) (digits : Nat) (power : Int) : Bool :=
  -- all in quarters of a unit in the last place
  let below := if x.mantissa = mantissaEnd / 2 then 4 * x.mantissa - 1 else 4 * x.mantissa - 2
  let above := 4 * x.mantissa + 2
  let (lowNum, lowDen) := scale below (x.exponent - 2)
  let (highNum, highDen) := scale above (x.exponent - 2)
  let (num, den) : Nat × Nat :=
    if 0 ≤ power then (digits * Nat.pow 10 power.toNat, 1)
    else (digits, Nat.pow 10 (-power).toNat)
  if x.mantissa % 2 = 0 then lowNum * den ≤ num * lowDen && num * highDen ≤ highNum * den
  else lowNum * den < num * lowDen && num * highDen < highNum * den

/-- The number of decimal digits before the point of a quotient, counted
down from a bound; at most zero if it is below one. -/
def decimalPoint (num den : Nat) : (fuel : Nat) → Int → Int
  | 0, p => p
  | fuel + 1, p =>
    let below := if 0 < p then num < den * Nat.pow 10 (p - 1).toNat
      else num * Nat.pow 10 (1 - p).toNat < den
    if below then decimalPoint num den fuel (p - 1) else p

/-- The digits of the shortest decimal that reads back, tried with
`count` digits and more, and the power of ten of the last one. -/
def shortestFrom (x : Binary64) (num den : Nat) (point : Int) : (fuel count : Nat) → Nat × Int
  | 0, _ => (0, 0)
  | fuel + 1, count =>
    let power := point - count
    let (n, d) : Nat × Nat :=
      if 0 ≤ power then (num, den * Nat.pow 10 power.toNat)
      else (num * Nat.pow 10 (-power).toNat, den)
    let down := n / d
    let nearest := roundDiv n d
    let other := if nearest = down then down + 1 else down
    if readsBack x nearest power then (nearest, power)
    else if readsBack x other power then (other, power)
    else shortestFrom x num den point fuel (count + 1)

/-- The digits without zeros at their end, the power adjusted. -/
def dropZeros : (fuel digits : Nat) → Int → Nat × Int
  | 0, digits, power => (digits, power)
  | fuel + 1, digits, power =>
    if digits ≠ 0 ∧ digits % 10 = 0 then dropZeros fuel (digits / 10) (power + 1)
    else (digits, power)

/-- The text of the decimal `digits * 10 ^ power`. -/
def layOut (digits : Nat) (power : Int) : String :=
  let ds := (toString digits).toList
  let point : Int := ds.length + power
  let zeros := fun n => List.replicate n '0'
  if point > 16 ∨ point < -3 then
    let e := point - 1
    let mark := if e < 0 then '-' else '+'
    let es := (toString e.natAbs).toList
    let es := if es.length < 2 then '0' :: es else es
    let fraction := if ds.tail.isEmpty then [] else '.' :: ds.tail
    String.ofList (ds.take 1 ++ fraction ++ 'e' :: mark :: es)
  else if point ≤ 0 then
    String.ofList (['0', '.'] ++ zeros (-point).toNat ++ ds)
  else if ds.length ≤ point.toNat then
    String.ofList (ds ++ zeros (point.toNat - ds.length) ++ ['.', '0'])
  else
    String.ofList (ds.take point.toNat ++ '.' :: ds.drop point.toNat)

/-- The decimal text of the number. -/
def text (x : Binary64) : String :=
  let sign := if x.negative then "-" else ""
  if x.mantissa = 0 then sign ++ "0.0"
  else
    let (num, den) := scale x.mantissa x.exponent
    let bound : Int := ((num / den).log2 : Int) / 3 + 2
    let point := decimalPoint num den (bound.toNat + 1100) bound
    let (digits, power) := shortestFrom x num den point 17 1
    let (digits, power) := dropZeros 17 digits power
    sign ++ layOut digits power

end Binary64

end ModuleAtlas
