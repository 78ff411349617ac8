import Marginalia.Text.Line

/-!
# The outline of a document

A document is located in by its lines alone: each line has an indentation and a
kind, judged without its neighbours.  A *module* is a key at indentation zero
with the lines up to the next such key; a *path* of keys is walked inside a
module, each key a child of the one before; a *body* is the block of items or
entries under a key.

`Outline.locate` and `Outline.body` find the lines that a change concerns.
-/

namespace Marginalia.Yaml

open CharClass

/-- What a line is, judged on its own. -/
inductive LineKind where
  | blank
  | comment
  /-- A line that opens with a key; `colon` is the byte offset of its colon in
  the line. -/
  | key (name : Text) (colon : Nat)
  /-- A line that opens with a dash; `first?` is the key right behind the dash
  and its colon. -/
  | item (first? : Option (Text × Nat))
  | other
  deriving DecidableEq, Repr

namespace LineKind

/-- A colon ends a key when white space or the end of the line follows. -/
def closesKey : Text → Bool
  | [] => true
  | c :: _ => isWhite c

/-- A key token at the start of `t`, as it is written, with the text through its
colon.

A quoted key runs to the next quote of its kind.  A bare key has no colon behind
its first character and no number sign, does not start with white space, a
number sign or a quote, and starts with a dash only before something other than
white space, a colon or a number sign. -/
def keyToken? (t : Text) : Option (Text × Text) :=
  let upTo (token rest : Text) : Option (Text × Text) :=
    let gap := rest.takeWhile isWhite
    match rest.dropWhile isWhite with
    | ':' :: after => if closesKey after then some (token, token ++ gap ++ [':']) else none
    | _ => none
  let quoted (mark : Char) (r : Text) : Option (Text × Text) :=
    match r.dropWhile (· != mark) with
    | _ :: rest => upTo (mark :: r.takeWhile (· != mark) ++ [mark]) rest
    | [] => none
  let bare (c : Char) (r : Text) : Option (Text × Text) :=
    let run := r.takeWhile fun d => d != ':' && d != '#'
    let token := c :: Text.trimEnd run
    upTo token ((c :: r).drop token.length)
  match t with
  | [] => none
  | '"' :: r => quoted '"' r
  | '\'' :: r => quoted '\'' r
  | '-' :: r =>
    match r with
    | [] => none
    | d :: _ => if isWhite d || d == ':' || d == '#' then none else bare '-' r
  | c :: r => if isWhite c || c == '#' then none else bare c r

/-- A written key without its quotes and without white space at its end. -/
def unquoteKey (token : Text) : Text :=
  Text.trimEnd (((Text.unwrap? '"' token).orElse fun _ => Text.unwrap? '\'' token).getD token)

/-- A dash and the white space behind it, with the text that follows; there has
to be white space. -/
def dash? : Text → Option (Text × Text)
  | '-' :: r =>
    let gap := r.takeWhile isWhite
    if gap.isEmpty then none else some ('-' :: gap, r.dropWhile isWhite)
  | _ => none

/-- The kind of a line with `indent` spaces before `body`. -/
def ofBody (indent : Nat) (body : Text) : LineKind :=
  if Text.isBlank body then blank
  else if body.head? = some '#' then comment
  else
    let (lead, rest) : Text × Text := (dash? body).getD ([], body)
    match keyToken? rest with
    | some (token, through) =>
      let name := unquoteKey token
      let colon := indent + (lead ++ through).size - 1
      if lead.isEmpty then key name colon else item (some (name, colon))
    | none =>
      if body = ['-'] ∨ (Text.dropPrefix? ['-', ' '] body).isSome then item none else other

end LineKind

structure OutlineLine where
  line : Line
  /-- The number of spaces before the first other character. -/
  indent : Nat
  kind : LineKind
  deriving DecidableEq, Repr

namespace OutlineLine

def ofLine (line : Line) : OutlineLine :=
  let indent := (line.content.takeWhile (· == ' ')).length
  ⟨line, indent, LineKind.ofBody indent (line.content.drop indent)⟩

/-- Neither blank nor a comment. -/
def isContent (l : OutlineLine) : Bool :=
  match l.kind with
  | .blank | .comment => false
  | _ => true

def isItem (l : OutlineLine) : Bool :=
  match l.kind with
  | .item _ => true
  | _ => false

/-- The key that the line opens with. -/
def key? (l : OutlineLine) : Option Text :=
  match l.kind with
  | .key name _ => some name
  | _ => none

def opensModule (l : OutlineLine) : Bool :=
  l.indent == 0 && l.key?.isSome

end OutlineLine

/-- Why a place was not found or not changed. -/
inductive Miss where
  | moduleNotFound (module : Text)
  | pathNotFound (module path : Text)
  | notAList (module path : Text)
  deriving DecidableEq, Repr

namespace Miss

/-- A name between grave accents. -/
def quoted (name : Text) : Text :=
  '\x60' :: name ++ ['\x60']

def message : Miss → Text
  | moduleNotFound module => "module ".toList ++ quoted module ++ " not found".toList
  | pathNotFound module path => quoted path ++ " not found under ".toList ++ quoted module
  | notAList module path =>
    quoted path ++ " under ".toList ++ quoted module ++
      " holds a scalar where a block was expected".toList

end Miss

/-- The lines from `start` up to `stop`. -/
structure LineRange where
  start : Nat
  stop : Nat
  deriving DecidableEq, Repr

inductive BodyKind where
  | sequence
  | mapping
  deriving DecidableEq, Repr

/-- The block under a key, from its first item through the last line of its last
item. -/
structure Body where
  /-- The lines of the block; directly behind the key line and empty when there
  is no block. -/
  lines : LineRange
  /-- The indentation of the items. -/
  indent : Nat
  deriving DecidableEq, Repr

abbrev Outline := List OutlineLine

namespace Outline

def ofText (t : Text) : Outline :=
  t.lines.map OutlineLine.ofLine

/-- The number of lines before the next module. -/
def toNextModule (o : Outline) : Nat :=
  (o.takeWhile fun l => !l.opensModule).length

/-- The lines of the first module with a given name, counted from `index`. -/
def moduleFrom? (name : Text) (index : Nat) : Outline → Option LineRange
  | [] => none
  | l :: ls =>
    if l.opensModule ∧ l.key? = some name then
      some ⟨index, index + 1 + toNextModule ls⟩
    else moduleFrom? name (index + 1) ls

/-- The lines of the first module with a given name. -/
def module (o : Outline) (name : Text) : Except Miss LineRange :=
  match moduleFrom? name 0 o with
  | some range => .ok range
  | none => .error (.moduleNotFound name)

/-- The names of the modules of consecutive lines, each with the line that opens
the module; the first of the lines is line `index`. -/
def openingsFrom (index : Nat) : Outline → List (Text × Nat)
  | [] => []
  | l :: ls =>
    let rest := openingsFrom (index + 1) ls
    match l.opensModule, l.key? with
    | true, some name => (name, index) :: rest
    | _, _ => rest

/-- Modules that end where the next one opens, the last of them at line
`stop`. -/
def closedAt (stop : Nat) : List (Text × Nat) → List (Text × LineRange)
  | [] => []
  | (name, start) :: rest =>
    (name, ⟨start, (rest.head?.map (·.2)).getD stop⟩) :: closedAt stop rest

def modules (o : Outline) : List (Text × LineRange) :=
  closedAt o.length (openingsFrom 0 o)

structure Walk where
  /-- Whether a key of the path was found already. -/
  inside : Bool
  /-- The indentation of the key whose children are searched. -/
  parent : Nat
  /-- The indentation of those children, once one was seen. -/
  child? : Option Nat
  deriving DecidableEq, Repr

/-- The line of the last key of a path, searched from line `index` on.

A line that is not deeper than the parent ends the search, except before the
first key of the path is found, where such a line at the margin is passed
over. -/
def walk (index : Nat) (w : Walk) (segment : Text) (deeper : List Text) : Outline → Option Nat
  | [] => none
  | l :: ls =>
    if !l.isContent then walk (index + 1) w segment deeper ls
    else if l.indent ≤ w.parent then
      if w.inside then none else walk (index + 1) w segment deeper ls
    else
      let child := w.child?.getD l.indent
      if l.indent ≠ child ∨ l.key? ≠ some segment then
        walk (index + 1) { w with child? := some child } segment deeper ls
      else
        match deeper with
        | [] => some index
        | next :: rest => walk (index + 1) ⟨true, l.indent, none⟩ next rest ls

/-- The line of the last key of `path` inside a module; the empty path stands
for the line of the module itself. -/
def findPath (o : Outline) (module : LineRange) (path : List Text) : Except Miss Nat :=
  match path with
  | [] => .ok module.start
  | segment :: deeper =>
    let head? := o[module.start]?
    let parent := (head?.map (·.indent)).getD 0
    let inner := (o.take module.stop).drop (module.start + 1)
    match walk (module.start + 1) ⟨false, parent, none⟩ segment deeper inner with
    | some line => .ok line
    | none =>
      let name := (head?.bind (·.key?)).getD []
      .error (.pathNotFound name (Text.joinWith ['.'] path))

/-- The segments of a dotted path; empty ones are dropped. -/
def segments (dotted : Text) : List Text :=
  (Text.splitAt '.' dotted).filter (!·.isEmpty)

/-- The lines of a module and the line of a dotted path in it. -/
def locate (o : Outline) (name dotted : Text) : Except Miss (LineRange × Nat) := do
  let range ← o.module name
  let line ← o.findPath range (segments dotted)
  return (range, line)

/-- The number of lines through the last line of a block, before the first
content line outside it. -/
def extent (inside : OutlineLine → Bool) : Outline → Nat
  | [] => 0
  | l :: ls =>
    let more := extent inside ls
    if !l.isContent then (if more = 0 then 0 else more + 1)
    else if inside l then more + 1
    else 0

/-- Whether a content line opens a block under a key with indentation `key`. -/
def opensBody (kind : BodyKind) (key : Nat) (l : OutlineLine) : Bool :=
  match kind with
  | .sequence => l.isItem && decide (key ≤ l.indent)
  | .mapping => decide (key < l.indent)

/-- Whether a content line goes on with a block whose items have indentation
`indent`. -/
def staysInBody (kind : BodyKind) (indent : Nat) (l : OutlineLine) : Bool :=
  match kind with
  | .sequence => decide (indent < l.indent) || (l.indent == indent && l.isItem)
  | .mapping => decide (indent ≤ l.indent)

/-- The block under the key of line `key`, among the lines before `stop`. -/
def body (o : Outline) (key stop : Nat) (kind : BodyKind) : Body :=
  let keyIndent := ((o[key]?).map (·.indent)).getD 0
  let region := (o.take stop).drop (key + 1)
  let trivia := (region.takeWhile fun l => !l.isContent).length
  match region.drop trivia with
  | [] => ⟨⟨key + 1, key + 1⟩, keyIndent + 2⟩
  | head :: rest =>
    if opensBody kind keyIndent head then
      let first := key + 1 + trivia
      ⟨⟨first, first + 1 + extent (staysInBody kind head.indent) rest⟩, head.indent⟩
    else ⟨⟨key + 1, key + 1⟩, keyIndent + 2⟩

end Outline

end Marginalia.Yaml
