import Marginalia.Yaml.Token.Basic

/-!
# Quoted scalars

A quoted scalar may run over several lines, which are folded.  Between single
quotes only the quote itself is written in a special way, twice; between double
quotes a backslash opens an escape.
-/

namespace Marginalia.Yaml

open CharClass

namespace Token

/-- The character with a code point that `digits` hexadecimal digits spell. -/
def hexEscape? (digits : Nat) (t : Text) : Option Char :=
  if t.length < digits then none
  else
    (Text.toNatBase? 16 (t.take digits)).bind fun n =>
      if n.isValidChar then some (Char.ofNat n) else none

/-- The character that an escape stands for, and the length of the escape, with
`t` the text behind the backslash. -/
def escape? (t : Text) : Option (Char × Nat) :=
  match t with
  | '0' :: _ => some ('\x00', 1)
  | 'a' :: _ => some ('\x07', 1)
  | 'b' :: _ => some ('\x08', 1)
  | 't' :: _ => some ('\t', 1)
  | '\t' :: _ => some ('\t', 1)
  | 'n' :: _ => some ('\n', 1)
  | 'v' :: _ => some ('\x0B', 1)
  | 'f' :: _ => some ('\x0C', 1)
  | 'r' :: _ => some ('\r', 1)
  | 'e' :: _ => some ('\x1B', 1)
  | ' ' :: _ => some (' ', 1)
  | '"' :: _ => some ('"', 1)
  | '/' :: _ => some ('/', 1)
  | '\\' :: _ => some ('\\', 1)
  | 'N' :: _ => some ('\x85', 1)
  | '_' :: _ => some ('\xA0', 1)
  | 'L' :: _ => some ('\u2028', 1)
  | 'P' :: _ => some ('\u2029', 1)
  | 'x' :: r => (hexEscape? 2 r).map (·, 3)
  | 'u' :: r => (hexEscape? 4 r).map (·, 5)
  | 'U' :: r => (hexEscape? 8 r).map (·, 9)
  | _ => none

structure QuotedState where
  /-- The value so far, in reverse. -/
  out : Text
  /-- The white space behind it. -/
  gap : Gap
  /-- The number of characters ahead that belong to an escape already read. -/
  skip : Nat
  deriving DecidableEq, Repr

/-- The rest of a quoted scalar whose opening quote was read. -/
def quotedFrom (double : Bool) (s : QuotedState) (line column : Nat) :
    Text → Except Error (Text × Cursor)
  | [] => .error .unclosedQuote
  | c :: r =>
    if 0 < s.skip then quotedFrom double { s with skip := s.skip - 1 } line (column + 1) r
    else if column = 0 ∧ Source.atMarker (c :: r) then .error .unclosedQuote
    else if Source.isBlank c then
      quotedFrom double { s with gap := s.gap.blank c } line (column + 1) r
    else if Source.isBreak c then
      quotedFrom double { s with gap := s.gap.lineBreak c } (line + 1) 0 r
    else
      let out := s.gap.fold ++ s.out
      if double then
        if c = '"' then .ok (out.reverse, ⟨r, line, column + 1⟩)
        else if c = '\\' then
          if (r.head?.map Source.isBreak).getD false then
            quotedFrom double ⟨out, .escaped, 0⟩ line (column + 1) r
          else
            match escape? r with
            | some (e, n) => quotedFrom double ⟨e :: out, .empty, n⟩ line (column + 1) r
            | none => .error .unknownEscape
        else quotedFrom double ⟨c :: out, .empty, 0⟩ line (column + 1) r
      else if c = '\'' then
        if r.head? = some '\'' then quotedFrom double ⟨c :: out, .empty, 1⟩ line (column + 1) r
        else .ok (out.reverse, ⟨r, line, column + 1⟩)
      else quotedFrom double ⟨c :: out, .empty, 0⟩ line (column + 1) r

/-- The value of the quoted scalar at the cursor, which stands on the opening
quote. -/
def quoted (double : Bool) (c : Cursor) : Except Error (Text × Cursor) :=
  let inner := c.skip 1
  quotedFrom double ⟨[], .empty, 0⟩ inner.line inner.column inner.rest

end Token

end Marginalia.Yaml
