import Marginalia.Number.Shortest
import Marginalia.Text.Basic

/-!
# Scalars in value position

A scalar is written into the place of an earlier value.  Only strings are
quoted: they keep the quotes of the value that they replace, and a string that
stood bare gets double quotes when it has a character that would change its
reading.  `Scalar.splitComment` is the other direction: it finds where a value
ends and its trailing comment begins.
-/

namespace Marginalia.Yaml

open CharClass

inductive Scalar where
  | null
  | bool (b : Bool)
  | int (i : Int)
  | float (x : Binary64)
  | str (s : Text)
  deriving DecidableEq, Repr

inductive Quote where
  | plain
  | single
  | double
  deriving DecidableEq, Repr

namespace Quote

/-- The quotes that a written value opens with. -/
def ofText (written : Text) : Quote :=
  match Text.trimStart written with
  | '"' :: _ => double
  | '\'' :: _ => single
  | _ => plain

end Quote

namespace Scalar

/-- Numbers are written positionally from `1e-4` up to below `1e16`. -/
def floatLayout : Layout :=
  { leastPositional := -4
    leastExponential := 16
    nan := ['N', 'a', 'N']
    infinity := ['i', 'n', 'f'] }

/-- A character that a bare string must not contain. -/
def isDelicate (c : Char) : Bool :=
  c == ':' || c == '#' || c == '"' || c == '\'' || c == ' ' || isControl c

/-- A bare string is quoted when it is empty or has a delicate character. -/
def needsQuotes (s : Text) : Bool :=
  s.isEmpty || s.any isDelicate

def escape (c : Char) : Text :=
  if c = '\\' then ['\\', '\\']
  else if c = '"' then ['\\', '"']
  else if c = '\n' then ['\\', 'n']
  else if c = '\r' then ['\\', 'r']
  else if c = '\t' then ['\\', 't']
  else if isControl c then '\\' :: 'u' :: Text.hex 4 c.toNat
  else [c]

def doubleQuoted (s : Text) : Text :=
  '"' :: s.flatMap escape ++ ['"']

/-- A character between single quotes: the quote itself is written twice. -/
def doubleApostrophe (c : Char) : Text :=
  if c = '\'' then ['\'', '\''] else [c]

/-- The string between single quotes; they cannot escape a control character, so
a string with one gets double quotes. -/
def singleQuoted (s : Text) : Text :=
  if s.any isControl then doubleQuoted s else '\'' :: s.flatMap doubleApostrophe ++ ['\'']

/-- The text of a scalar that replaces a value with the given quotes. -/
def render (quote : Quote) : Scalar → Text
  | null => ['n', 'u', 'l', 'l']
  | bool true => ['t', 'r', 'u', 'e']
  | bool false => ['f', 'a', 'l', 's', 'e']
  | int i => Text.ofInt i
  | float x => floatLayout.write x
  | str s =>
    match quote with
    | .single => singleQuoted s
    | .double => doubleQuoted s
    | .plain => if needsQuotes s then doubleQuoted s else s

/-- Where a reader of a value position stands. -/
structure CommentState where
  inSingle : Bool
  inDouble : Bool
  escaped : Bool
  afterWhite : Bool
  deriving DecidableEq, Repr

namespace CommentState

/-- The start of a value position counts as following white space. -/
def start : CommentState :=
  ⟨false, false, false, true⟩

/-- A number sign outside quotes opens a comment when white space precedes
it. -/
def opensComment (s : CommentState) (c : Char) : Bool :=
  c == '#' && s.afterWhite && !s.escaped && !s.inSingle && !s.inDouble

/-- The state after one more character of the value. -/
def step (s : CommentState) (c : Char) : CommentState :=
  let s :=
    if s.escaped then { s with escaped := false }
    else if c = '\\' ∧ s.inDouble then { s with escaped := true }
    else if c = '"' ∧ ¬s.inSingle then { s with inDouble := !s.inDouble }
    else if c = '\'' ∧ ¬s.inDouble then { s with inSingle := !s.inSingle }
    else s
  { s with afterWhite := isWhite c }

end CommentState

/-- The characters before the number sign that opens a comment, or all of
them. -/
def beforeComment (s : CommentState) : Text → Text
  | [] => []
  | c :: t => if s.opensComment c then [] else c :: beforeComment (s.step c) t

/-- A value position as its value, without white space at the end, and its
comment, which keeps the white space before it and is empty when there is
none. -/
def splitComment (t : Text) : Text × Text :=
  let lead := beforeComment .start t
  let value := Text.trimEnd lead
  (value, if lead.length < t.length then t.drop value.length else [])

end Scalar

end Marginalia.Yaml
