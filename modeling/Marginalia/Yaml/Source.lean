import Marginalia.Yaml.Error

/-!
# The characters of a document

A document may hold tabs, line breaks and printable characters.  Its line breaks
are written in several ways; `Source.ofText` writes a line feed for each
carriage return, each pair of a carriage return and a line feed, and each
next-line character, so that every break is one character afterwards.  The line
and paragraph separators are breaks, too, and stay what they are.
-/

namespace Marginalia.Yaml

namespace Source

/-- A character that a document may hold. -/
def isAllowed (c : Char) : Bool :=
  let n := c.toNat
  n == 0x09 || n == 0x0A || n == 0x0D || (decide (0x20 ≤ n) && decide (n ≤ 0x7E)) || n == 0x85 ||
    (decide (0xA0 ≤ n) && decide (n ≤ 0xFFFD)) || decide (0x10000 ≤ n)

/-- The text with one line feed for each line break of the ASCII and C1
kinds. -/
def withLineFeeds : Text → Text
  | '\r' :: '\n' :: t => '\n' :: withLineFeeds t
  | '\r' :: t => '\n' :: withLineFeeds t
  | '\x85' :: t => '\n' :: withLineFeeds t
  | c :: t => c :: withLineFeeds t
  | [] => []

/-- The characters that are read of a text, unless it holds a forbidden one. -/
def ofText (t : Text) : Except Error Text :=
  match t.find? fun c => !isAllowed c with
  | some c => .error (.forbiddenCharacter c)
  | none => .ok (withLineFeeds t)

def isBreak (c : Char) : Bool :=
  c == '\n' || c == '\u2028' || c == '\u2029'

/-- A space or a tab. -/
def isBlank (c : Char) : Bool :=
  c == ' ' || c == '\t'

/-- A space, a tab or a line break. -/
def isGap (c : Char) : Bool :=
  isBlank c || isBreak c

/-- Whether a gap or the end of the document comes next. -/
def atGap : Text → Bool
  | [] => true
  | c :: _ => isGap c

/-- Whether a document marker, three dashes or three dots, comes next. -/
def atMarker : Text → Bool
  | '-' :: '-' :: '-' :: r => atGap r
  | '.' :: '.' :: '.' :: r => atGap r
  | _ => false

/-- A character of a name: a letter, a digit, an underscore or a dash. -/
def isNameChar (c : Char) : Bool :=
  c.isAlphanum || c == '_' || c == '-'

end Source

/-- What is left of a document, and where it begins. -/
structure Cursor where
  rest : Text
  line : Nat
  column : Nat
  deriving DecidableEq, Repr

namespace Cursor

/-- The cursor behind `n` characters of the line. -/
def skip (c : Cursor) (n : Nat) : Cursor :=
  { c with rest := c.rest.drop n, column := c.column + n }

end Cursor

end Marginalia.Yaml
