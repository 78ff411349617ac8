import Marginalia.Number.Binary64
import Marginalia.Text.Basic

/-!
# Decimal numerals

Reading a numeral such as `-12.5e3` into the nearest binary number.  A numeral
has an optional sign, digits with at most one point among or beside them, and an
optional power of ten.
-/

namespace Marginalia

/-- A decimal numeral without its sign: `digits * 10 ^ exponent`. -/
structure Decimal where
  digits : Nat
  exponent : Int
  deriving DecidableEq, Repr

namespace Decimal

def isDigit (c : Char) : Bool :=
  decide ('0' ≤ c) && decide (c ≤ '9')

/-- The number that a run of ASCII digits spells, continuing from `acc`. -/
def digitsFrom (acc : Nat) (ds : Text) : Nat :=
  ds.foldl (fun n d => 10 * n + (d.toNat - '0'.toNat)) acc

/-- The power of ten after the `e`: a sign and at least one digit, and nothing
else. -/
def exponent? (t : Text) : Option Int :=
  let (negative, ds) : Bool × Text :=
    match t with
    | '-' :: r => (true, r)
    | '+' :: r => (false, r)
    | r => (false, r)
  if ds.isEmpty || !ds.all isDigit then none
  else
    let n : Int := digitsFrom 0 ds
    some (if negative then -n else n)

/-- A numeral without a sign. -/
def ofText? (t : Text) : Option Decimal :=
  let whole := t.takeWhile isDigit
  let rest := t.dropWhile isDigit
  let (part, rest) : Text × Text :=
    match rest with
    | '.' :: r => (r.takeWhile isDigit, r.dropWhile isDigit)
    | r => ([], r)
  if whole.isEmpty && part.isEmpty then none
  else
    let digits := digitsFrom (digitsFrom 0 whole) part
    let shift : Int := part.length
    match rest with
    | [] => some ⟨digits, -shift⟩
    | c :: r =>
      if c = 'e' ∨ c = 'E' then (exponent? r).map fun e => ⟨digits, e - shift⟩ else none

/-- The nearest binary number.  The magnitude decides alone when the first digit
stands above `10 ^ 400` or below `10 ^ (-400)`. -/
def toBinary64 (negative : Bool) (d : Decimal) : Binary64 :=
  let places : Int := (Nat.toDigits 10 d.digits).length
  if d.digits = 0 then Binary64.zero negative
  else if 400 < d.exponent + places then Binary64.infinite negative
  else if d.exponent + places < -400 then Binary64.zero negative
  else if 0 ≤ d.exponent then Binary64.ofRatio negative (d.digits * Nat.pow 10 d.exponent.toNat) 1
  else Binary64.ofRatio negative d.digits (Nat.pow 10 (-d.exponent).toNat)

/-- A numeral with an optional sign, as the nearest binary number. -/
def signed? (t : Text) : Option Binary64 :=
  match t with
  | '-' :: r => (ofText? r).map (toBinary64 true)
  | '+' :: r => (ofText? r).map (toBinary64 false)
  | r => (ofText? r).map (toBinary64 false)

end Decimal

namespace Binary64

/-- The number that a word stands for, in any mixture of cases: an infinity or
the not-a-number. -/
def ofWord? (negative : Bool) (t : Text) : Option Binary64 :=
  let word := t.map Char.toLower
  if word = ['i', 'n', 'f'] ∨ word = ['i', 'n', 'f', 'i', 'n', 'i', 't', 'y'] then
    some (infinite negative)
  else if word = ['n', 'a', 'n'] then some nan
  else none

/-- A binary number from a numeral or from a word such as `inf`, each with an
optional sign. -/
def ofText? (t : Text) : Option Binary64 :=
  let word :=
    match t with
    | '-' :: r => ofWord? true r
    | '+' :: r => ofWord? false r
    | r => ofWord? false r
  word <|> Decimal.signed? t

end Binary64

end Marginalia
