import Marginalia.Text.Basic

/-!
# Versions

A version has three parts, each a 32-bit number, and is ordered by its parts
from the first on.  A document carries its version behind a marker, which is
found without regard to case; the first marker that a version follows counts.
-/

namespace Marginalia

structure Version where
  major : UInt32
  minor : UInt32
  patch : UInt32
  deriving DecidableEq, Repr

namespace Version

/-- The version that stands for a text without one. -/
def zero : Version :=
  ⟨0, 0, 0⟩

/-- The order by the first part in which two versions differ. -/
def order (a b : Version) : Ordering :=
  (compare a.major b.major).then
    ((compare a.minor b.minor).then (compare a.patch b.patch))

def toText (v : Version) : Text :=
  Text.ofNat v.major.toNat ++ '.' :: Text.ofNat v.minor.toNat ++ '.' :: Text.ofNat v.patch.toNat

/-- The number of one part: ASCII digits behind an optional plus sign, below
`2 ^ 32`. -/
def part? (t : Text) : Option UInt32 :=
  (Text.toNat? ((Text.dropPrefix? ['+'] t).getD t)).bind fun n =>
    if n < Nat.pow 2 32 then some (UInt32.ofNat n) else none

/-- A text without one `v` at its start. -/
def dropLetter : Text → Text
  | 'v' :: t => t
  | 'V' :: t => t
  | t => t

/-- The version of a text: three parts, of which the first may follow a `v`.
Further parts do not matter, and a text of any other shape reads as the version
zero. -/
def ofText (t : Text) : Version :=
  match (Text.splitAt '.' (dropLetter (Text.trim t))).map part? with
  | some major :: some minor :: some patch :: _ => ⟨major, minor, patch⟩
  | _ => zero

/-! ### Markers -/

/-- The characters that count as a lower-case letter when case does not matter.
The long `s` is an `s`. -/
def foldsTo (letter c : Char) : Bool :=
  c == letter || c == letter.toUpper || (letter == 's' && c == 'ſ')

/-- What follows a lower-case word, when case does not matter. -/
def dropWord? : (word t : Text) → Option Text
  | [], t => some t
  | _ :: _, [] => none
  | w :: word, c :: t => if foldsTo w c then dropWord? word t else none

/-- A run of decimal digits of any script, and what follows it. -/
def digits? (t : Text) : Option (Text × Text) :=
  let run := t.takeWhile CharClass.isDigitAnywhere
  if run.isEmpty then none else some (run, t.dropWhile CharClass.isDigitAnywhere)

/-- A run of digits with a point behind it, and what follows the point. -/
def digitsPoint? (t : Text) : Option (Text × Text) :=
  match digits? t with
  | some (run, '.' :: rest) => some (run, rest)
  | _ => none

/-- Three runs of digits with points between them, at the start of a text. -/
def triple? (t : Text) : Option Text := do
  let (major, t) ← digitsPoint? t
  let (minor, t) ← digitsPoint? t
  let (patch, _) ← digits? t
  return major ++ '.' :: minor ++ '.' :: patch

/-- The digits behind a marker with which a text starts. -/
def marked? (t : Text) : Option Text :=
  (dropWord? ['v', 'e', 'r', 's', 'i', 'o', 'n', ':'] t).bind fun rest =>
    triple? (dropLetter (Text.trimStart rest))

/-- The version behind the first marker of a document.  Digits of another script
mark a version, but it reads as the version zero. -/
def find? : Text → Option Version
  | [] => none
  | c :: t =>
    match marked? (c :: t) with
    | some found => some (ofText found)
    | none => find? t

end Version

end Marginalia
