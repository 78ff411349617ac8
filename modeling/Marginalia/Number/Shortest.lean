import Marginalia.Number.Decimal

/-!
# Shortest decimal text

The fewest digits that read back to a binary number, and of those the nearest;
an exact tie goes up.  A positive number owns the interval of reals that round
to it, ends included when its mantissa is even.  On each decimal grid only the
two neighbours of the number can be the answer, so the search tries grids of one
digit, two digits and so on until a neighbour lies in the interval; seventeen
digits always suffice.

`Layout` decides how the digits are placed: positionally, or with a power of
ten.
-/

namespace Marginalia

namespace Binary64

/-- The interval of a positive number `mantissa * 2 ^ exponent`, as multiples of
`2 ^ (exponent - 2)`: the lower end, the number itself and the upper end. -/
def interval (mantissa : Nat) (exponent : Int) : Nat × Nat × Nat :=
  let below := if mantissa = Nat.pow 2 52 ∧ exponent > leastExponent then 1 else 2
  (4 * mantissa - below, 4 * mantissa, 4 * mantissa + 2)

/-- The power of ten of the first digit of a quotient below one; the search
gives up after `fuel` zeros. -/
def zerosBefore (num den : Nat) : Nat → Nat
  | 0 => 0
  | fuel + 1 => if den ≤ num then 0 else 1 + zerosBefore (10 * num) den fuel

/-- The power of ten of the first digit of a positive quotient. -/
def firstDigitPlace (num den : Nat) : Int :=
  if den ≤ num then ((Nat.toDigits 10 (num / den)).length : Int) - 1
  else -(zerosBefore num den 400 : Int)

/-- The neighbour that answers on the grid of multiples of `10 ^ place`, when
one lies in the interval. -/
def onGrid? (mantissa : Nat) (exponent place : Int) : Option Nat :=
  let (low, mid, high) := interval mantissa exponent
  let closed := mantissa % 2 = 0
  let scale : Int := exponent - 2
  let up := Nat.pow 2 scale.toNat
  let down := Nat.pow 2 (-scale).toNat
  let unitUp := Nat.pow 10 place.toNat
  let unitDown := Nat.pow 10 (-place).toNat
  -- a multiple `n` of the unit compares with `x` of the interval as `n * unit`
  -- with `x * value`
  let unit := unitUp * down
  let value := up * unitDown
  let lower := mid * value / unit
  let upper := lower + 1
  let inside (n : Nat) : Bool :=
    if closed then decide (low * value ≤ n * unit) && decide (n * unit ≤ high * value)
    else decide (low * value < n * unit) && decide (n * unit < high * value)
  if inside lower then
    if inside upper ∧ 2 * (mid * value) ≥ (lower + upper) * unit then some upper else some lower
  else if inside upper then some upper
  else none

/-- The search over grids that are finer and finer, from `place` down. -/
def searchGrids (mantissa : Nat) (exponent place : Int) : Nat → Decimal
  | 0 => ⟨mantissa, 0⟩
  | fuel + 1 =>
    match onGrid? mantissa exponent place with
    | some n => ⟨n, place⟩
    | none => searchGrids mantissa exponent (place - 1) fuel

def stripZeros (digits : Nat) (exponent : Int) : Nat → Decimal
  | 0 => ⟨digits, exponent⟩
  | fuel + 1 =>
    if digits ≠ 0 ∧ digits % 10 = 0 then stripZeros (digits / 10) (exponent + 1) fuel
    else ⟨digits, exponent⟩

/-- The shortest decimal of a positive number. -/
def shortest (mantissa : Nat) (exponent : Int) : Decimal :=
  let (num, den) :=
    if 0 ≤ exponent then (mantissa * Nat.pow 2 exponent.toNat, 1)
    else (mantissa, Nat.pow 2 (-exponent).toNat)
  let found := searchGrids mantissa exponent (firstDigitPlace num den) 20
  stripZeros found.digits found.exponent 400

end Binary64

/-- How the digits of a decimal are placed. -/
structure Layout where
  /-- The least power of ten of a first digit that is written positionally. -/
  leastPositional : Int
  /-- The least power of ten of a first digit that is written with an exponent
  again. -/
  leastExponential : Int
  nan : Text
  infinity : Text
  deriving DecidableEq, Repr

namespace Layout

/-- Digits with a point after the first one, if there are more, and a power of
ten. -/
def exponential (digits : Text) (place : Int) : Text :=
  let tail := 'e' :: Text.ofInt place
  match digits with
  | d :: (e :: ds) => d :: '.' :: e :: ds ++ tail
  | ds => ds ++ tail

/-- Digits written out, with at least one digit on either side of the point. -/
def positional (digits : Text) (place : Int) : Text :=
  if place < 0 then
    '0' :: '.' :: List.replicate ((-place).toNat - 1) '0' ++ digits
  else
    let whole := place.toNat + 1
    let part := digits.drop whole
    digits.take whole ++ List.replicate (whole - digits.length) '0' ++
      '.' :: (if part.isEmpty then ['0'] else part)

/-- The text of a binary number: always a point or an exponent, and a minus sign
also on the negative zero. -/
def write (l : Layout) : Binary64 → Text
  | .nan => l.nan
  | .infinite negative => if negative then '-' :: l.infinity else l.infinity
  | .finite negative mantissa exponent =>
    let body :=
      if mantissa = 0 then ['0', '.', '0']
      else
        let d := Binary64.shortest mantissa exponent
        let digits := Text.ofNat d.digits
        let place := d.exponent + digits.length - 1
        if l.leastPositional ≤ place ∧ place < l.leastExponential then positional digits place
        else exponential digits place
    if negative then '-' :: body else body

end Layout

end Marginalia
