import Marginalia.Toml.Bare
import Marginalia.Toml.Quoted
import Marginalia.Toml.Value

/-!
# Reading TOML

A document is read line by line: headers, entries, comments and blank lines.
The values of arrays and inline tables nest, at most `maxDepth` deep.  The loops
over items and lines consume a character in each step, so the length of the text
bounds them.
-/

namespace Marginalia.Toml

/-- The greatest depth of arrays and inline tables. -/
def maxDepth : Nat := 80

namespace Reader

/-- What follows white space, line ends and comments; none when a comment has a
character that may stand nowhere. -/
def trivia? (inComment : Bool) : Text → Option Text
  | [] => some []
  | c :: r =>
    if c = '\n' then trivia? false r
    else if c = '\r' ∧ r.head? = some '\n' then trivia? inComment r
    else if inComment then (if isForbidden c then none else trivia? true r)
    else if isBlank c then trivia? false r
    else if c = '#' then trivia? true r
    else some (c :: r)

/-- What follows the end of a line, before which white space and a comment may
stand. -/
def lineEnd? (t : Text) : Option Text :=
  let t := t.dropWhile isBlank
  let t := if t.head? = some '#' then t.dropWhile (!isForbidden ·) else t
  if t.isEmpty then some [] else dropNewline? t

def isKeyPart (c : Char) : Bool :=
  c.isAlphanum || c == '_' || c == '-'

def keyPart? (t : Text) : Option (Text × Text) :=
  match t with
  | '"' :: _ => Quoted.short? '"' t
  | '\'' :: _ => Quoted.short? '\'' t
  | _ =>
    let part := t.takeWhile isKeyPart
    if part.isEmpty then none else some (part, t.dropWhile isKeyPart)

/-- The parts of a dotted key, the last one apart, and what follows the white
space behind it. -/
def key? : (limit : Nat) → Text → Option (List Text × Text × Text)
  | 0, _ => none
  | limit + 1, t => do
    let (part, t) ← keyPart? (t.dropWhile isBlank)
    match t.dropWhile isBlank with
    | '.' :: r =>
      let (path, last, r) ← key? limit r
      return (part :: path, last, r)
    | r => return ([], part, r)

/-- The items of an array whose opening was read. -/
def items? (value? : Text → Option (Value × Text)) :
    (limit : Nat) → List Value → Text → Option (Value × Text)
  | 0, _, _ => none
  | limit + 1, items, t => do
    match ← trivia? false t with
    | ']' :: r => return (.array items, r)
    | t =>
      let (v, t) ← value? t
      match ← trivia? false t with
      | ',' :: r => items? value? limit (items ++ [v]) r
      | ']' :: r => return (.array (items ++ [v]), r)
      | _ => none

/-- The entries of an inline table whose opening was read. -/
def entries? (value? : Text → Option (Value × Text)) :
    (limit : Nat) → Entries → Text → Option (Value × Text)
  | 0, _, _ => none
  | limit + 1, es, t => do
    match ← trivia? false t with
    | '}' :: r => return (.table .inline es, r)
    | t =>
      let (path, last, t) ← key? t.length t
      let t ← Text.dropPrefix? ['='] t
      let (v, t) ← value? (t.dropWhile isBlank)
      let (_, es) ← Table.insert? path last v .inline es
      match ← trivia? false t with
      | ',' :: r => entries? value? limit es r
      | '}' :: r => return (.table .inline es, r)
      | _ => none

/-- A value without items of its own. -/
def leaf? (t : Text) : Option (Value × Text) :=
  if t.head? = some '"' ∨ t.head? = some '\'' then
    (Quoted.read? t).map fun (s, r) => (.str s, r)
  else Bare.read? t

/-- A value in which arrays and inline tables nest at most `depth` deep. -/
def value? : (depth : Nat) → Text → Option (Value × Text)
  | 0, t => leaf? t
  | depth + 1, t =>
    match t with
    | '[' :: r => items? (value? depth) t.length [] r
    | '{' :: r => entries? (value? depth) t.length [] r
    | _ => leaf? t

/-- A document of which some lines were read. -/
structure Progress where
  /-- The path of the last header. -/
  above : List Text
  entries : Entries

/-- The step for a header whose opening was read. -/
def header? (repeated : Bool) (p : Progress) (t : Text) : Option (Progress × Text) := do
  let (path, last, t) ← key? t.length t
  let t ← Text.dropPrefix? (if repeated then [']', ']'] else [']']) t
  let entries ← Table.openHeader? repeated path last p.entries
  return (⟨path ++ [last], entries⟩, t)

def entry? (p : Progress) (t : Text) : Option (Progress × Text) := do
  let (path, last, t) ← key? t.length t
  let t ← Text.dropPrefix? ['='] t
  let (v, t) ← value? maxDepth (t.dropWhile isBlank)
  let entries ← Table.insertBelow? p.above path last v p.entries
  return ({ p with entries }, t)

/-- The step for a line that is not blank. -/
def line? (p : Progress) (t : Text) : Option (Progress × Text) :=
  match t with
  | '[' :: '[' :: r => header? true p r
  | '[' :: r => header? false p r
  | _ => entry? p t

def lines? : (limit : Nat) → Progress → Text → Option Entries
  | 0, _, _ => none
  | limit + 1, p, t => do
    match ← trivia? false t with
    | [] => return p.entries
    | t =>
      let (p, t) ← line? p t
      lines? limit p (← lineEnd? t)

end Reader

namespace Entries

/-- The document of a text.  A byte order mark at its start does not belong to
it. -/
def ofText? (t : Text) : Option Entries :=
  let t := (Text.dropPrefix? ['\uFEFF'] t).getD t
  Reader.lines? (t.length + 1) ⟨[], []⟩ t

end Entries

end Marginalia.Toml
