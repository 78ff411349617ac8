import Marginalia.Yaml.Token.Block
import Marginalia.Yaml.Token.Plain
import Marginalia.Yaml.Token.Property
import Marginalia.Yaml.Token.Quoted

/-!
# The tokens of a text

A document is read from left to right.  Block collections have no opening and
closing characters of their own: their tokens come from the indentation, which
is kept as a stack of columns.  A key is recognised only at the colon behind it,
so each place at which a key may begin is remembered until the colon, the end of
the line or the end of the collection; the token that announces the key is then
put in at that place.

`Token.ofText` is the whole reading; it takes one step for each token, and each
step but the last consumes a character.
-/

namespace Marginalia.Yaml

/-- A place at which a key may have begun. -/
structure KeyStart where
  /-- The number of tokens before it. -/
  tokens : Nat
  line : Nat
  column : Nat
  /-- Whether the place can be nothing else than the start of a key. -/
  required : Bool
  deriving DecidableEq, Repr

/-- What was read of a document. -/
structure Scan where
  cursor : Cursor
  /-- The columns of the open block collections, innermost first. -/
  indents : List Nat
  /-- The place at which a key of the innermost flow level may have begun. -/
  candidate : Option KeyStart
  /-- The same for each flow collection around it, innermost first. -/
  outer : List (Option KeyStart)
  /-- Whether a key may begin here. -/
  keyAllowed : Bool
  /-- The tokens so far, in reverse. -/
  tokens : List Token
  deriving DecidableEq, Repr

namespace Scan

def start (t : Text) : Scan :=
  { cursor := ⟨t, 0, 0⟩
    indents := []
    candidate := none
    outer := []
    keyAllowed := true
    tokens := [] }

def inFlow (s : Scan) : Bool :=
  !s.outer.isEmpty

/-- The column of the innermost block collection. -/
def indent? (s : Scan) : Option Nat :=
  s.indents.head?

def push (s : Scan) (t : Token) : Scan :=
  { s with tokens := t :: s.tokens }

/-- One more token at an earlier place, with `n` tokens before it. -/
def pushAt (s : Scan) (n : Nat) (t : Token) : Scan :=
  { s with tokens := s.tokens.insertIdx (s.tokens.length - n) t }

/-- The white space and the comments up to the next token, with the new cursor
and whether a key may begin there.  Tabs are white space unless a key could
begin in their place. -/
def skipGap (flow allowed comment : Bool) (line column : Nat) : Text → Cursor × Bool
  | [] => (⟨[], line, column⟩, allowed)
  | c :: r =>
    if Source.isBreak c then skipGap flow (allowed || !flow) false (line + 1) 0 r
    else if comment then skipGap flow allowed true line (column + 1) r
    else if column = 0 ∧ c = '\uFEFF' then skipGap flow allowed false line 1 r
    else if c = ' ' ∨ (c = '\t' ∧ (flow ∨ ¬allowed)) then
      skipGap flow allowed false line (column + 1) r
    else if c = '#' then skipGap flow allowed true line (column + 1) r
    else (⟨c :: r, line, column⟩, allowed)

/-- A candidate survives on its line for 1024 characters; one that had to become
a key is then an error. -/
def refresh (c : Cursor) (k : Option KeyStart) : Except Error (Option KeyStart) :=
  match k with
  | none => .ok none
  | some k =>
    if k.line < c.line ∨ k.column + 1024 < c.column then
      if k.required then .error .keyWithoutColon else .ok none
    else .ok (some k)

def dropStale (s : Scan) : Except Error Scan := do
  let candidate ← refresh s.cursor s.candidate
  let outer ← s.outer.mapM (refresh s.cursor)
  return { s with candidate, outer }

/-- The state without the candidate, which must not have been a required one. -/
def forgetKey (s : Scan) : Except Error Scan :=
  if (s.candidate.map (·.required)).getD false then .error .keyWithoutColon
  else .ok { s with candidate := none }

/-- The state with a candidate at the cursor, if a key may begin there. -/
def markKey (s : Scan) : Except Error Scan := do
  if !s.keyAllowed then return s
  let required := !s.inFlow && s.indent? == some s.cursor.column
  let s ← s.forgetKey
  return { s with
    candidate := some ⟨s.tokens.length, s.cursor.line, s.cursor.column, required⟩ }

def closeIndents (column : Nat) : List Nat → List Token → List Nat × List Token
  | [], tokens => ([], tokens)
  | i :: is, tokens =>
    if column < i then closeIndents column is (.blockEnd :: tokens) else (i :: is, tokens)

/-- The state with the block collections closed that are deeper than
`column`. -/
def unroll (s : Scan) (column : Nat) : Scan :=
  if s.inFlow then s
  else
    let (indents, tokens) := closeIndents column s.indents s.tokens
    { s with indents, tokens }

/-- The state with every block collection closed. -/
def unrollAll (s : Scan) : Scan :=
  if s.inFlow then s
  else { s with indents := [], tokens := s.indents.map (fun _ => Token.blockEnd) ++ s.tokens }

/-- The state with a block collection opened at `column`, unless one is open
there; its token gets `n` tokens before it. -/
def roll (s : Scan) (column n : Nat) (t : Token) : Scan :=
  if s.inFlow then s
  else
    let opens :=
      match s.indent? with
      | none => true
      | some i => decide (i < column)
    if opens then { s.pushAt n t with indents := column :: s.indents } else s

/-- One token that is `width` characters long. -/
def take (s : Scan) (width : Nat) (t : Token) : Scan :=
  { s.push t with cursor := s.cursor.skip width }

/-- The state before a directive or a document marker: at the end of all
collections. -/
def endBlocks (s : Scan) : Except Error Scan := do
  let s ← s.unrollAll.forgetKey
  return { s with keyAllowed := false }

def directive (s : Scan) : Except Error Scan := do
  let s ← s.endBlocks
  let (t, width) ← Token.directiveAt s.cursor.rest
  return s.take width t

def marker (s : Scan) (t : Token) : Except Error Scan := do
  let s ← s.endBlocks
  return s.take 3 t

def openFlow (s : Scan) (t : Token) : Except Error Scan := do
  let s ← s.markKey
  return { s.take 1 t with
    outer := s.candidate :: s.outer
    candidate := none
    keyAllowed := true }

def closeFlow (s : Scan) (t : Token) : Except Error Scan := do
  let s ← s.forgetKey
  let s : Scan :=
    match s.outer with
    | [] => s
    | k :: ks => { s with candidate := k, outer := ks }
  return { s.take 1 t with keyAllowed := false }

def comma (s : Scan) : Except Error Scan := do
  let s ← s.forgetKey
  return { s.take 1 .flowEntry with keyAllowed := true }

def dash (s : Scan) : Except Error Scan := do
  if !s.inFlow && !s.keyAllowed then throw (.misplacedIndicator '-')
  let s := s.roll s.cursor.column s.tokens.length .blockSequenceStart
  let s ← s.forgetKey
  return { s.take 1 .blockEntry with keyAllowed := true }

def explicitKey (s : Scan) : Except Error Scan := do
  if !s.inFlow && !s.keyAllowed then throw (.misplacedIndicator '?')
  let s := s.roll s.cursor.column s.tokens.length .blockMappingStart
  let s ← s.forgetKey
  return { s.take 1 .key with keyAllowed := !s.inFlow }

/-- A colon before a value: behind a candidate it makes that candidate a key. -/
def colon (s : Scan) : Except Error Scan := do
  match s.candidate with
  | some k =>
    let s := s.pushAt k.tokens .key
    let s := s.roll k.column k.tokens .blockMappingStart
    return { s.take 1 .value with candidate := none, keyAllowed := false }
  | none =>
    if !s.inFlow && !s.keyAllowed then throw (.misplacedIndicator ':')
    let s := s.roll s.cursor.column s.tokens.length .blockMappingStart
    return { s.take 1 .value with keyAllowed := !s.inFlow }

def name (s : Scan) (t : Text → Token) : Except Error Scan := do
  let s ← s.markKey
  let n ← Token.anchorName (s.cursor.rest.drop 1)
  return { s.take (1 + n.length) (t n) with keyAllowed := false }

def tag (s : Scan) : Except Error Scan := do
  let s ← s.markKey
  let (t, width) ← Token.tagAt s.inFlow s.cursor.rest
  return { s.take width t with keyAllowed := false }

def blockScalar (s : Scan) (folded : Bool) : Except Error Scan := do
  let s ← s.forgetKey
  let (text, cursor) ← Token.block folded s.indent? s.cursor
  return { s.push (.scalar false text) with cursor, keyAllowed := true }

def quotedScalar (s : Scan) (double : Bool) : Except Error Scan := do
  let s ← s.markKey
  let (text, cursor) ← Token.quoted double s.cursor
  return { s.push (.scalar false text) with cursor, keyAllowed := false }

def plainScalar (s : Scan) : Except Error Scan := do
  let s ← s.markKey
  let indent := (s.indent?.map (· + 1)).getD 0
  let p ← Token.plain s.inFlow indent s.cursor
  return { s.push (.scalar true p.text) with cursor := p.stop, keyAllowed := p.crossedLine }

/-- A character that no plain scalar starts with. -/
def isIndicator (c : Char) : Bool :=
  "-?:,[]\x7b\x7d#&*!|>'\"%@\x60".toList.contains c

/-- Whether a plain scalar starts with `c` before `r`: a dash needs something
other than a blank behind it, a question mark or a colon something other than a
gap, and not in flow style. -/
def startsPlain (flow : Bool) (c : Char) (r : Text) : Bool :=
  !(Source.isGap c || isIndicator c) ||
    (c == '-' && !((r.head?.map Source.isBlank).getD false)) ||
    (!flow && (c == '?' || c == ':') && !Source.atGap r)

/-- The token that starts with `c` before `r`. -/
def dispatch (s : Scan) (c : Char) (r : Text) : Except Error Scan :=
  let flow := s.inFlow
  let margin := s.cursor.column = 0
  if margin ∧ c = '%' then s.directive
  else if margin ∧ Source.atMarker (c :: r) then
    s.marker (if c = '-' then .documentStart else .documentEnd)
  else if c = '[' then s.openFlow .flowSequenceStart
  else if c = '\x7b' then s.openFlow .flowMappingStart
  else if c = ']' then s.closeFlow .flowSequenceEnd
  else if c = '\x7d' then s.closeFlow .flowMappingEnd
  else if c = ',' then s.comma
  else if c = '-' ∧ Source.atGap r then s.dash
  else if c = '?' ∧ (flow ∨ Source.atGap r) then s.explicitKey
  else if c = ':' ∧ (flow ∨ Source.atGap r) then s.colon
  else if c = '*' then s.name .aliasTo
  else if c = '&' then s.name .anchor
  else if c = '!' then s.tag
  else if c = '|' ∧ ¬flow then s.blockScalar false
  else if c = '>' ∧ ¬flow then s.blockScalar true
  else if c = '\'' then s.quotedScalar false
  else if c = '"' then s.quotedScalar true
  else if startsPlain flow c r then s.plainScalar
  else .error (.unexpectedCharacter c)

/-- The state at the next token: behind white space, with the collections closed
that end there. -/
def approach (s : Scan) : Except Error Scan := do
  let (cursor, keyAllowed) :=
    skipGap s.inFlow s.keyAllowed false s.cursor.line s.cursor.column s.cursor.rest
  let s ← { s with cursor, keyAllowed : Scan }.dropStale
  return s.unroll cursor.column

/-- The tokens of the rest of a document, in reverse; `fuel` bounds the number
of steps. -/
def run : Nat → Scan → Except Error (List Token)
  | 0, _ => .error .tooDeep
  | fuel + 1, s => do
    let s ← s.approach
    match s.cursor.rest with
    | [] => return (← s.unrollAll.forgetKey).tokens
    | c :: r => run fuel (← s.dispatch c r)

end Scan

namespace Token

def ofText (t : Text) : Except Error (List Token) := do
  let source ← Source.ofText t
  return (← Scan.run (source.length + 1) (Scan.start source)).reverse

end Token

end Marginalia.Yaml
