import Marginalia.Text.Basic

/-!
# Quoted texts in TOML

A text is quoted by single or double quotes, one for a text on one line and
three for a text on several.  Escapes work between double quotes only.  `quote`
writes a text in the first of these styles that needs no escape; when none does,
it escapes.
-/

namespace Marginalia.Toml

/-- White space within a line. -/
def isBlank (c : Char) : Bool :=
  c == ' ' || c == '\t'

/-- What follows a line end with which a text starts. -/
def dropNewline? : Text → Option Text
  | '\n' :: r => some r
  | '\r' :: '\n' :: r => some r
  | _ => none

/-- The control characters that stand nowhere in a document, line ends apart. -/
def isForbidden (c : Char) : Bool :=
  (decide (c.toNat < 0x20) && c != '\t') || c == '\x7F'

structure QuoteStyle where
  mark : Char
  /-- Three marks, and the text may run over several lines. -/
  long : Bool
  deriving DecidableEq, Repr

namespace QuoteStyle

def hasEscapes (s : QuoteStyle) : Bool :=
  s.mark == '"'

/-- The characters on either side of the text. -/
def delimiter (s : QuoteStyle) : Text :=
  List.replicate (if s.long then 3 else 1) s.mark

end QuoteStyle

namespace Quoted

/-! ### Reading -/

/-- The character with a code point of `digits` hexadecimal digits, and the
length of its escape. -/
def codePoint? (digits : Nat) (t : Text) : Option (Char × Nat) :=
  if t.length < digits then none
  else
    (Text.toNatBase? 16 (t.take digits)).bind fun n =>
      if n.isValidChar then some (Char.ofNat n, digits + 1) else none

/-- The character that an escape stands for, and the length of the escape, with
`t` the text behind the backslash. -/
def escape? (t : Text) : Option (Char × Nat) :=
  match t with
  | 'b' :: _ => some ('\x08', 1)
  | 't' :: _ => some ('\t', 1)
  | 'n' :: _ => some ('\n', 1)
  | 'f' :: _ => some ('\x0C', 1)
  | 'r' :: _ => some ('\r', 1)
  | 'e' :: _ => some ('\x1B', 1)
  | '"' :: _ => some ('"', 1)
  | '\\' :: _ => some ('\\', 1)
  | 'x' :: r => codePoint? 2 r
  | 'u' :: r => codePoint? 4 r
  | 'U' :: r => codePoint? 8 r
  | _ => none

/-- White space or a line end at the start of a text. -/
def startsGap (t : Text) : Bool :=
  (t.head?.map isBlank).getD false || (dropNewline? t).isSome

/-- The rest of a quoted text whose opening was read, and what follows it.
`out` is the text so far in reverse, `skip` the number of characters of an
escape that are still ahead, and `joining` says that the white space behind a
backslash at the end of a line is being passed. -/
def readFrom (s : QuoteStyle) (out : Text) (skip : Nat) (joining : Bool) :
    Text → Option (Text × Text)
  | [] => none
  | c :: r =>
    if 0 < skip then readFrom s out (skip - 1) false r
    else if joining && startsGap (c :: r) then readFrom s out 0 true r
    else if c = s.mark then
      if !s.long then some (out.reverse, r)
      else
        let more := (r.takeWhile (· == s.mark)).length
        if more < 2 then readFrom s (c :: out) 0 false r
        else
          let extra := min (more - 2) 2
          some (out.reverse ++ List.replicate extra c, r.drop (2 + extra))
    else if c = '\\' && s.hasEscapes then
      if s.long && (dropNewline? (r.dropWhile isBlank)).isSome then readFrom s out 0 true r
      else
        match escape? r with
        | some (e, n) => readFrom s (e :: out) n false r
        | none => none
    else if s.long && (dropNewline? (c :: r)).isSome then
      readFrom s (if c = '\r' then out else c :: out) 0 false r
    else if isForbidden c then none
    else readFrom s (c :: out) 0 false r

def short? (mark : Char) (t : Text) : Option (Text × Text) :=
  (Text.dropPrefix? [mark] t).bind (readFrom ⟨mark, false⟩ [] 0 false)

/-- A text between three marks; a line end directly behind them does not belong
to it. -/
def long? (mark : Char) (t : Text) : Option (Text × Text) :=
  (Text.dropPrefix? [mark, mark, mark] t).bind fun r =>
    readFrom ⟨mark, true⟩ [] 0 false ((dropNewline? r).getD r)

def read? (t : Text) : Option (Text × Text) :=
  match t with
  | '"' :: '"' :: '"' :: _ => long? '"' t
  | '"' :: _ => short? '"' t
  | '\'' :: '\'' :: '\'' :: _ => long? '\'' t
  | '\'' :: _ => short? '\'' t
  | _ => none

/-! ### Writing -/

def longestRun (mark : Char) (run : Nat) : Text → Nat
  | [] => run
  | c :: r => if c = mark then longestRun mark (run + 1) r else max run (longestRun mark 0 r)

/-- A character that only an escape can write, line ends apart. -/
def needsCode (c : Char) : Bool :=
  isForbidden c && c != '\n'

/-- Whether a style writes a text as it stands. -/
def suits (t : Text) (s : QuoteStyle) : Bool :=
  !t.any needsCode && !(s.hasEscapes && t.contains '\\') && (s.long || !t.contains '\n') &&
    decide (longestRun s.mark 0 t ≤ if s.long then 2 else 0)

def styles : List QuoteStyle :=
  [⟨'"', false⟩, ⟨'\'', false⟩, ⟨'"', true⟩, ⟨'\'', true⟩]

def styleOf (t : Text) : QuoteStyle :=
  (styles.find? (suits t)).getD ⟨'"', t.contains '\n'⟩

def escaped (c : Char) : Text :=
  match c with
  | '\x08' => ['\\', 'b']
  | '\t' => ['\\', 't']
  | '\n' => ['\\', 'n']
  | '\x0C' => ['\\', 'f']
  | '\r' => ['\\', 'r']
  | '"' => ['\\', '"']
  | '\\' => ['\\', '\\']
  | c => '\\' :: 'u' :: (Text.hex 4 c.toNat).map Char.toUpper

/-- The inside of a text between double quotes, `run` of which stand directly
before it.  A tab is escaped, and of the quotes in a long text each third. -/
def escapeFrom (long : Bool) (run : Nat) : Text → Text
  | [] => []
  | c :: r =>
    if c = '"' then
      if long ∧ run < 2 then c :: escapeFrom long (run + 1) r else escaped c ++ escapeFrom long 0 r
    else if (c = '\n' ∧ long) ∨ ¬(isForbidden c ∨ c = '\t' ∨ c = '\\') then
      c :: escapeFrom long 0 r
    else escaped c ++ escapeFrom long 0 r

/-- A text in quotes.  A text of several lines starts on a line of its own. -/
def write (t : Text) : Text :=
  let s := styleOf t
  let first : Text := if s.long ∧ t.contains '\n' then ['\n'] else []
  let inside := if s.hasEscapes then escapeFrom s.long 0 t else t
  s.delimiter ++ first ++ inside ++ s.delimiter

end Quoted

end Marginalia.Toml
