import Marginalia.Moment.Basic
import Marginalia.Toml.Value

/-!
# Bare values in TOML

Truth values, numbers and times stand without quotes.  Digits of numbers may be
divided by single underscores, and a number has no needless zeros before it.
-/

namespace Marginalia.Toml.Bare

def isPart (c : Char) : Bool :=
  c.isAlphanum || c == '+' || c == '-' || c == '.' || c == ':' || c == '_'

/-- Digits without the underscores that divide them; none when an underscore
does not stand between two digits. -/
def digits? (isDigit : Char → Bool) : Text → Option Text
  | [] => none
  | [c] => if isDigit c then some [c] else none
  | c :: '_' :: r => if isDigit c then (digits? isDigit r).map (c :: ·) else none
  | c :: r => if isDigit c then (digits? isDigit r).map (c :: ·) else none

def sign : Text → Bool × Text
  | '-' :: r => (true, r)
  | '+' :: r => (false, r)
  | r => (false, r)

def whole? (t : Text) : Option Text :=
  (digits? Char.isDigit t).bind fun ds =>
    if ds.head? = some '0' ∧ 1 < ds.length then none else some ds

/-- An integer from `-2 ^ 127` to `2 ^ 128 - 1`. -/
def inRange? (i : Int) : Option Int :=
  if -Int.pow 2 127 ≤ i ∧ i < Int.pow 2 128 then some i else none

def based? (base : Nat) (t : Text) : Option Int :=
  (digits? (fun c => ((CharClass.hexValue? c).map (decide <| · < base)).getD false) t).bind
    fun ds => (Text.toNatBase? base ds).bind fun n => inRange? n

def int? (t : Text) : Option Int :=
  match t with
  | '0' :: 'x' :: r => based? 16 r
  | '0' :: 'o' :: r => based? 8 r
  | '0' :: 'b' :: r => based? 2 r
  | _ =>
    let (negative, r) := sign t
    (whole? r).bind fun ds =>
      (Text.toNat? ds).bind fun n => inRange? (if negative then -(n : Int) else n)

def fraction? (t : Text) : Option Text :=
  match t with
  | [] => some []
  | '.' :: r => (digits? Char.isDigit r).map ('.' :: ·)
  | _ => none

def exponent? (t : Text) : Option Text :=
  match t with
  | [] => some []
  | _ :: r =>
    let (negative, r) := sign r
    (digits? Char.isDigit r).map fun ds => if negative then 'e' :: '-' :: ds else 'e' :: ds

/-- A number with decimals or a power of ten, which is not too large. -/
def decimal? (negative : Bool) (t : Text) : Option Binary64 := do
  let isMark := fun c => c == 'e' || c == 'E'
  let mantissa := t.takeWhile (!isMark ·)
  let power := t.dropWhile (!isMark ·)
  let digits ← whole? (mantissa.takeWhile (· != '.'))
  let fraction ← fraction? (mantissa.dropWhile (· != '.'))
  let exponent ← exponent? power
  if fraction.isEmpty ∧ exponent.isEmpty then none
  else
    let d ← Decimal.ofText? (digits ++ fraction ++ exponent)
    let x := d.toBinary64 negative
    if x.isFinite then some x else none

def float? (t : Text) : Option Binary64 :=
  let (negative, r) := sign t
  if r = ['i', 'n', 'f'] then some (.infinite negative)
  else if r = ['n', 'a', 'n'] then some .nan
  else decimal? negative r

/-- The number of a fixed count of ASCII digits, and what follows them. -/
def fixed? (count : Nat) (t : Text) : Option (Nat × Text) :=
  if t.length < count ∨ !(t.take count).all Char.isDigit then none
  else (Text.toNat? (t.take count)).map fun n => (n, t.drop count)

/-- What follows a date. -/
def dropDate? (t : Text) : Option Text := do
  let (year, t) ← fixed? 4 t
  let t ← Text.dropPrefix? ['-'] t
  let (month, t) ← fixed? 2 t
  let t ← Text.dropPrefix? ['-'] t
  let (day, t) ← fixed? 2 t
  if (Date.mk year month day).isValid then some t else none

/-- What follows the seconds of a time, which may be left out with their
decimals. -/
def dropSeconds? (t : Text) : Option Text :=
  match t with
  | ':' :: r =>
    (fixed? 2 r).bind fun (second, r) =>
      if 60 < second then none
      else
        match r with
        | '.' :: ds =>
          if (ds.head?.map Char.isDigit).getD false then some (ds.dropWhile Char.isDigit) else none
        | r => some r
  | r => some r

def dropClock? (t : Text) : Option Text := do
  let (hour, t) ← fixed? 2 t
  let t ← Text.dropPrefix? [':'] t
  let (minute, t) ← fixed? 2 t
  if hour < 24 ∧ minute < 60 then dropSeconds? t else none

/-- A zone, or nothing. -/
def isZone (t : Text) : Bool :=
  match t with
  | [] => true
  | ['Z'] => true
  | ['z'] => true
  | [s, h, k, ':', m, n] =>
    (s == '+' || s == '-') &&
      match fixed? 2 [h, k], fixed? 2 [m, n] with
      | some (hours, _), some (minutes, _) => decide (hours < 24) && decide (minutes < 60)
      | _, _ => false
  | _ => false

/-- A date, a time of day, or a date with a time of day and perhaps a zone. -/
def isTime (t : Text) : Bool :=
  match dropDate? t with
  | some [] => true
  | some (c :: r) =>
    (c == 'T' || c == 't' || c == ' ') && ((dropClock? r).map isZone).getD false
  | none => dropClock? t == some []

def value? (t : Text) : Option Value :=
  if t = ['t', 'r', 'u', 'e'] then some (.bool true)
  else if t = ['f', 'a', 'l', 's', 'e'] then some (.bool false)
  else
    match int? t with
    | some i => some (.int i)
    | none =>
      match float? t with
      | some x => some (.float x)
      | none => if isTime t then some (.time t) else none

/-- The characters of a bare value at the start of a text, and what follows
them.  A time of day may stand behind a date with one space between them. -/
def split (t : Text) : Text × Text :=
  let token := t.takeWhile isPart
  let rest := t.dropWhile isPart
  match rest with
  | ' ' :: c :: r =>
    if c.isDigit ∧ dropDate? token = some [] then
      (token ++ ' ' :: (c :: r).takeWhile isPart, (c :: r).dropWhile isPart)
    else (token, rest)
  | _ => (token, rest)

/-- The bare value at the start of a text, and what follows it. -/
def read? (t : Text) : Option (Value × Text) :=
  let (token, rest) := split t
  (value? token).map (·, rest)

end Marginalia.Toml.Bare
