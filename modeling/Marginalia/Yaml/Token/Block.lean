import Marginalia.Yaml.Token.Basic

/-!
# Block scalars

A block scalar is a header, `|` or `>` with optional indicators, and the
indented lines below it.  The literal style keeps the line breaks, the folded
style joins lines that are not indented further.  The header also says what
becomes of the breaks at the end.
-/

namespace Marginalia.Yaml

namespace Token

/-- What becomes of the line breaks at the end of a block scalar. -/
inductive Chomping where
  /-- None stays. -/
  | strip
  /-- The one behind the last line stays. -/
  | clip
  /-- All stay. -/
  | keep
  deriving DecidableEq, Repr

structure BlockHeader where
  chomping : Chomping
  /-- The indentation relative to the collection around the scalar, when it is
  given. -/
  increment : Option Nat
  deriving DecidableEq, Repr

def chomping? (c : Char) : Option Chomping :=
  if c = '+' then some .keep else if c = '-' then some .strip else none

/-- The indentation that a digit stands for; zero is none. -/
def increment? (c : Char) : Option Nat :=
  if '1' ≤ c ∧ c ≤ '9' then some (c.toNat - '0'.toNat) else none

/-- The indicators behind `|` or `>`, in either order, and the text after
them. -/
def blockHeader (t : Text) : BlockHeader × Text :=
  match t with
  | [] => (⟨.clip, none⟩, [])
  | a :: r =>
    match chomping? a, increment? a with
    | some chomping, _ =>
      match r.head?.bind increment? with
      | some n => (⟨chomping, some n⟩, r.drop 1)
      | none => (⟨chomping, none⟩, r)
    | none, some n =>
      match r.head?.bind chomping? with
      | some chomping => (⟨chomping, some n⟩, r.drop 1)
      | none => (⟨.clip, some n⟩, r)
    | none, none => (⟨.clip, none⟩, a :: r)

structure BlockState where
  /-- The value so far, in reverse. -/
  out : Text
  /-- The indentation of the content, once it is known. -/
  indent : Option Nat
  /-- The widest indentation among the lines before the content. -/
  widest : Nat
  /-- The break behind the last content line. -/
  lead : Text
  /-- The breaks of the empty lines after it, in reverse. -/
  trail : Text
  /-- Whether the last content line started with a blank. -/
  blankLine : Bool
  /-- Whether the place is inside a content line. -/
  inLine : Bool
  deriving DecidableEq, Repr

namespace BlockState

/-- The value up to the start of a new content line, in reverse.  In the folded
style one line feed between lines that do not start with a blank becomes a
space, or nothing before empty lines. -/
def join (s : BlockState) (folded blank : Bool) : Text :=
  if folded ∧ s.lead = ['\n'] ∧ ¬s.blankLine ∧ ¬blank then
    if s.trail.isEmpty then ' ' :: s.out else s.trail ++ s.out
  else s.trail ++ (s.lead ++ s.out)

def finish (s : BlockState) (chomping : Chomping) : Text :=
  match chomping with
  | .strip => s.out.reverse
  | .clip => (s.lead ++ s.out).reverse
  | .keep => (s.trail ++ (s.lead ++ s.out)).reverse

end BlockState

/-- The rest of a block scalar below its header; content is indented by at least
`least`. -/
def blockFrom (folded : Bool) (chomping : Chomping) (least : Nat) (s : BlockState)
    (line column : Nat) : Text → Except Error (Text × Cursor)
  | [] => .ok (s.finish chomping, ⟨[], line, column⟩)
  | c :: r =>
    if s.inLine then
      if Source.isBreak c then
        blockFrom folded chomping least { s with lead := [c], inLine := false } (line + 1) 0 r
      else blockFrom folded chomping least { s with out := c :: s.out } line (column + 1) r
    else
      let below := (s.indent.map fun k => decide (column < k)).getD true
      if below ∧ c = ' ' then blockFrom folded chomping least s line (column + 1) r
      else if below ∧ c = '\t' then .error .tabAsIndentation
      else if Source.isBreak c then
        blockFrom folded chomping least
          { s with trail := c :: s.trail, widest := max s.widest column } (line + 1) 0 r
      else
        let indent := s.indent.getD (max (max s.widest column) least)
        if column = indent then
          let blank := Source.isBlank c
          blockFrom folded chomping least
            { s with
              out := c :: s.join folded blank
              indent := some indent
              lead := []
              trail := []
              blankLine := blank
              inLine := true }
            line (column + 1) r
        else .ok (s.finish chomping, ⟨c :: r, line, column⟩)

/-- The block scalar at the cursor, which stands on its first indicator;
`parent` is the indentation of the collection around it. -/
def block (folded : Bool) (parent : Option Nat) (c : Cursor) : Except Error (Text × Cursor) :=
  let (header, behind) := blockHeader (c.rest.drop 1)
  let blanks := behind.takeWhile Source.isBlank
  let text := behind.dropWhile Source.isBlank
  let comment := if text.head? = some '#' then text.takeWhile (!Source.isBreak ·) else []
  let body := text.drop comment.length
  let indent := header.increment.map fun n => (parent.getD 0) + n
  let start : BlockState := ⟨[], indent, 0, [], [], false, false⟩
  let least := max 1 ((parent.map (· + 1)).getD 0)
  match body with
  | [] =>
    let width := c.rest.length - behind.length + blanks.length + comment.length
    blockFrom folded header.chomping least start c.line (c.column + width) []
  | b :: r =>
    if Source.isBreak b then blockFrom folded header.chomping least start (c.line + 1) 0 r
    else .error .badBlockHeader

end Token

end Marginalia.Yaml
