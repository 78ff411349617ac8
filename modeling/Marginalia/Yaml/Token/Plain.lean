import Marginalia.Yaml.Token.Basic

/-!
# Plain scalars

A plain scalar has no quotes.  It ends before a comment, before a colon with
white space behind it, before an indicator of the flow style inside a flow
collection, before a document marker, and before a line that is not indented
deeper than the collection around it.
-/

namespace Marginalia.Yaml

namespace Token

/-- An indicator that ends a plain scalar inside a flow collection. -/
def isFlowIndicator (c : Char) : Bool :=
  c == ',' || c == '[' || c == ']' || c == '\x7b' || c == '\x7d'

/-- A plain scalar with the place behind it and the white space that was skipped
there. -/
structure PlainScalar where
  text : Text
  stop : Cursor
  /-- Whether a line break lies between the scalar and its stop. -/
  crossedLine : Bool
  deriving DecidableEq, Repr

/-- The rest of a plain scalar: `out` was read, in reverse, and `gap` follows
it.  A line at less than `indent` ends the scalar in block style. -/
def plainFrom (flow : Bool) (indent : Nat) (out : Text) (gap : Gap) (line column : Nat) :
    Text → Except Error PlainScalar
  | [] => .ok ⟨out.reverse, ⟨[], line, column⟩, gap.hasBreak⟩
  | c :: r =>
    let stop : Except Error PlainScalar :=
      .ok ⟨out.reverse, ⟨c :: r, line, column⟩, gap.hasBreak⟩
    if Source.isBlank c then
      if gap.hasBreak ∧ column < indent ∧ c = '\t' then .error .tabAsIndentation
      else plainFrom flow indent out (gap.blank c) line (column + 1) r
    else if Source.isBreak c then plainFrom flow indent out (gap.lineBreak c) (line + 1) 0 r
    else if gap ≠ .empty ∧ ¬flow ∧ column < indent then stop
    else if column = 0 ∧ Source.atMarker (c :: r) then stop
    else if gap ≠ .empty ∧ c = '#' then stop
    else if flow ∧ c = ':' ∧ (r.head?.map fun d => isFlowIndicator d || d == '?').getD false then
      .error .colonBeforeFlow
    else if c = ':' ∧ Source.atGap r then stop
    else if flow ∧ isFlowIndicator c then stop
    else plainFrom flow indent (c :: (gap.fold ++ out)) .empty line (column + 1) r

def plain (flow : Bool) (indent : Nat) (c : Cursor) : Except Error PlainScalar :=
  plainFrom flow indent [] .empty c.line c.column c.rest

end Token

end Marginalia.Yaml
