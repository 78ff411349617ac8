import Marginalia.Yaml.Token.Basic

/-!
# Anchors, tags and directives

The tokens that stand before a value or before a document and are made of names:
`&anchor`, `*alias`, `!tag` and the lines that begin with a percent sign.
-/

namespace Marginalia.Yaml

open CharClass

namespace Token

/-- A character that may follow the name of an anchor. -/
def endsAnchor (c : Char) : Bool :=
  Source.isGap c || c == '?' || c == ':' || c == ',' || c == ']' || c == '\x7d' || c == '%' ||
    c == '@' || c == '\x60'

/-- The name of an anchor or an alias, and its length, with `t` the text behind
the indicator. -/
def anchorName (t : Text) : Except Error Text :=
  let name := t.takeWhile Source.isNameChar
  let ended := ((t.drop name.length).head?.map endsAnchor).getD true
  if name.isEmpty || !ended then .error .badAnchor else .ok name

/-- A character of a tag; brackets and commas only in a tag that is written
out. -/
def isTagChar (verbatim : Bool) (c : Char) : Bool :=
  Source.isNameChar c || ";/?:@&=+$.%!~*'()".toList.contains c ||
    (verbatim && (c == ',' || c == '[' || c == ']'))

/-- The number of octets that a first octet announces, with the bits that it
contributes. -/
def firstOctet? (octet : Nat) : Option (Nat × Nat) :=
  if octet < 0x80 then some (1, octet)
  else if 0xC0 ≤ octet ∧ octet < 0xE0 then some (2, octet - 0xC0)
  else if 0xE0 ≤ octet ∧ octet < 0xF0 then some (3, octet - 0xE0)
  else if 0xF0 ≤ octet ∧ octet < 0xF8 then some (4, octet - 0xF0)
  else none

/-- The text with its percent escapes read as octets; `left` octets are still to
come of a character with the bits `bits`. -/
def unescapeTag? (left bits : Nat) : Text → Option Text
  | [] => if left = 0 then some [] else none
  | '%' :: a :: b :: r =>
    match hexValue? a, hexValue? b with
    | some high, some low =>
      let octet := 16 * high + low
      let next? : Option (Nat × Nat) :=
        if left = 0 then (firstOctet? octet).map fun (n, bits) => (n - 1, bits)
        else if 0x80 ≤ octet ∧ octet < 0xC0 then some (left - 1, 64 * bits + (octet - 0x80))
        else none
      match next? with
      | none => none
      | some (0, n) =>
        if n.isValidChar then (unescapeTag? 0 0 r).map (Char.ofNat n :: ·) else none
      | some (left, n) => unescapeTag? left n r
    | _, _ => none
  | c :: r => if left ≠ 0 ∨ c = '%' then none else (unescapeTag? 0 0 r).map (c :: ·)

/-- The text of a tag as it is written, and what it stands for. -/
def tagText (verbatim : Bool) (t : Text) : Except Error (Text × Text) :=
  let written := t.takeWhile (isTagChar verbatim)
  match unescapeTag? 0 0 written with
  | some text => .ok (written, text)
  | none => .error .badTag

/-- The handle at the start of a tag: an exclamation mark, and a name with a
second mark when one follows. -/
def tagHandle (t : Text) : Text :=
  let name := (t.drop 1).takeWhile Source.isNameChar
  let behind := t.drop (1 + name.length)
  if behind.head? = some '!' then '!' :: name ++ ['!'] else '!' :: name

/-- A named handle or the secondary one: it begins and ends with two different
marks. -/
def isFullHandle (handle : Text) : Bool :=
  decide (1 < handle.length) && handle.getLast? == some '!'

/-- The tag at the start of `t`, which begins with an exclamation mark, and its
length. -/
def tagAt (flow : Bool) (t : Text) : Except Error (Token × Nat) := do
  let (found, length) : Token × Nat ←
    if (t.drop 1).head? = some '<' then do
      let (written, text) ← tagText true (t.drop 2)
      if written.isEmpty || (t.drop (2 + written.length)).head? ≠ some '>' then throw .badTag
      pure (tag [] text, 3 + written.length)
    else do
      let handle := tagHandle t
      if isFullHandle handle then
        let (written, text) ← tagText false (t.drop handle.length)
        if written.isEmpty then throw .badTag
        pure (tag handle text, handle.length + written.length)
      else
        let (written, text) ← tagText false (t.drop handle.length)
        let suffix := handle.drop 1 ++ text
        let length := handle.length + written.length
        if suffix.isEmpty then pure (tag [] ['!'], length) else pure (tag ['!'] suffix, length)
  let behind := t.drop length
  if (flow && behind.head? == some ',') || Source.atGap behind then return (found, length)
  throw .badTag

/-- A run of at most nine digits as a number, and its length. -/
def versionNumber (t : Text) : Except Error (Nat × Nat) :=
  let digits := t.takeWhile Char.isDigit
  if digits.length > 9 then .error .badDirective
  else
    match Text.toNat? digits with
    | some n => .ok (n, digits.length)
    | none => .error .badDirective

def blankCount (t : Text) : Nat :=
  (t.takeWhile Source.isBlank).length

/-- The version directive whose name was read, and its length. -/
def versionDirectiveAt (t : Text) : Except Error (Token × Nat) := do
  let start := blankCount t
  let (major, n) ← versionNumber (t.drop start)
  if (t.drop (start + n)).head? ≠ some '.' then throw .badDirective
  let (minor, m) ← versionNumber (t.drop (start + n + 1))
  return (versionDirective major minor, start + n + 1 + m)

/-- The tag directive whose name was read, and its length. -/
def tagDirectiveAt (t : Text) : Except Error (Token × Nat) := do
  let start := blankCount t
  let t := t.drop start
  if t.head? ≠ some '!' then throw .badDirective
  let handle := tagHandle t
  if !isFullHandle handle && handle ≠ ['!'] then throw .badDirective
  let behind := t.drop handle.length
  let gap := blankCount behind
  if gap = 0 then throw .badDirective
  let (written, text) ← tagText true (behind.drop gap)
  if written.isEmpty || !Source.atGap (behind.drop (gap + written.length)) then
    throw .badDirective
  return (tagDirective handle text, start + handle.length + gap + written.length)

/-- The directive at the start of `t`, which begins with a percent sign, and its
length with the blanks and the comment behind it.  The line has to end there. -/
def directiveAt (t : Text) : Except Error (Token × Nat) := do
  let name := (t.drop 1).takeWhile Source.isNameChar
  let behind := t.drop (1 + name.length)
  if name.isEmpty || !Source.atGap behind then throw .badDirective
  let (found, n) ←
    if name = "YAML".toList then versionDirectiveAt behind
    else if name = "TAG".toList then tagDirectiveAt behind
    else throw .badDirective
  let tail := behind.drop n
  let blanks := blankCount tail
  let text := tail.drop blanks
  let comment := if text.head? = some '#' then (text.takeWhile (!Source.isBreak ·)).length else 0
  match text.drop comment with
  | [] => return (found, 1 + name.length + n + blanks + comment)
  | c :: _ =>
    if Source.isBreak c then return (found, 1 + name.length + n + blanks + comment)
    throw .badDirective

end Token

end Marginalia.Yaml
