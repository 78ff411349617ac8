import Marginalia.Moment.Basic

/-!
# Reading moments

A moment is read with some freedom: white space may stand before each number and
each mark, numbers need not be padded, the time may follow a space, and the zone
may be an offset, which is taken off.  Each reader gives what it read and the
text behind it.
-/

namespace Marginalia.Moment

/-- At most `limit` ASCII digits, at least one. -/
def number? (limit : Nat) (t : Text) : Option (Nat × Text) :=
  let run := (t.take limit).takeWhile Char.isDigit
  (Text.toNat? run).map fun n => (n, t.drop run.length)

def spacedNumber? (limit : Nat) (t : Text) : Option (Nat × Text) :=
  number? limit (Text.trimStart t)

def mark? (mark : Char) (t : Text) : Option Text :=
  Text.dropPrefix? [mark] (Text.trimStart t)

/-- A year: at most four digits, or any number of them behind a sign. -/
def year? (t : Text) : Option (Int × Text) :=
  match Text.trimStart t with
  | '-' :: r => (number? r.length r).map fun (n, r) => (-(n : Int), r)
  | '+' :: r => (number? r.length r).map fun (n, r) => ((n : Int), r)
  | r => (number? 4 r).map fun (n, r) => ((n : Int), r)

def date? (t : Text) : Option (Date × Text) := do
  let (year, t) ← year? t
  let t ← mark? '-' t
  let (month, t) ← spacedNumber? 2 t
  let t ← mark? '-' t
  let (day, t) ← spacedNumber? 2 t
  return (⟨year, month, day⟩, t)

/-- The decimals of a second as nanoseconds: nine of them count, and there may
be none. -/
def fraction? (t : Text) : Option (Nat × Text) :=
  match t with
  | '.' :: r =>
    (number? 9 r).map fun (n, rest) =>
      (n * Nat.pow 10 (9 - (r.length - rest.length)), rest.dropWhile Char.isDigit)
  | _ => some (0, t)

def twoDigits? : Text → Option (Nat × Text)
  | a :: b :: r => (Text.toNat? [a, b]).map fun n => (n, r)
  | _ => none

/-- An offset without its sign, in minutes. -/
def offset? (t : Text) : Option (Nat × Text) := do
  let (hours, t) ← twoDigits? t
  let (minutes, t) ← twoDigits? (t.dropWhile fun c => c == ':' || CharClass.isWhite c)
  if minutes < 60 ∧ hours < 24 then some (hours * 60 + minutes, t) else none

/-- A zone, as the minutes that it is ahead of UTC. -/
def zone? (t : Text) : Option (Int × Text) :=
  match t with
  | 'Z' :: r => some (0, r)
  | 'z' :: r => some (0, r)
  | '+' :: r => (offset? r).map fun (n, r) => ((n : Int), r)
  | '-' :: r => (offset? r).map fun (n, r) => (-(n : Int), r)
  | '−' :: r => (offset? r).map fun (n, r) => (-(n : Int), r)
  | u :: t :: c :: r =>
    if [u, t, c].map Char.toUpper = ['U', 'T', 'C'] then some (0, r) else none
  | _ => none

/-- The time behind a date, with its zone. -/
def timeOn? (date : Date) (t : Text) : Option (Moment × Int × Text) := do
  let (hour, t) ← spacedNumber? 2 t
  let t ← mark? ':' t
  let (minute, t) ← spacedNumber? 2 t
  let t ← mark? ':' t
  let (second, t) ← spacedNumber? 2 t
  let (nano, t) ← fraction? t
  let (ahead, t) ← zone? (Text.trimStart t)
  return (⟨date, hour, minute, second, nano⟩, ahead, t)

/-- The character between date and time. -/
def dropSeparator? : Text → Option Text
  | 'T' :: r => some r
  | 't' :: r => some r
  | ' ' :: r => some r
  | _ => none

/-- The moment of a text, in UTC. -/
def ofText? (t : Text) : Option Moment := do
  let (date, t) ← date? t
  let t ← dropSeparator? t
  let (m, ahead, t) ← timeOn? date t
  if m.isValid ∧ Text.isBlank t then
    let m := m.shift (-ahead)
    if m.isValid then some m else none
  else none

end Marginalia.Moment
