import Marginalia.Text.Edit
import Marginalia.Yaml.Outline
import Marginalia.Yaml.Scalar

/-!
# Changing a document in place

Three changes: a field gets a new scalar, a list gets new items, an order list
and the flags beside it get new entries.  Each is a list of edits against the
text, so everything outside the touched lines stays byte for byte: comments,
blank lines, line endings, quotes.
-/

namespace Marginalia.Yaml

inductive ListItem where
  | scalar (value : Scalar)
  | record (fields : List (Text × Scalar))
  deriving DecidableEq, Repr

namespace ListItem

/-- A field of a record; its strings are always between double quotes. -/
def field (lead : Text) (key : Text) (value : Scalar) : Text :=
  let written :=
    match value with
    | .str s => Scalar.doubleQuoted s
    | other => other.render .plain
  lead ++ key ++ [':', ' '] ++ written

/-- The lines of an item, without the indentation of the list. -/
def render : ListItem → List Text
  | scalar value => ['-' :: ' ' :: value.render .plain]
  | record [] => [['-', ' ', '\x7b', '\x7d']]
  | record ((key, value) :: fields) =>
    field ['-', ' '] key value :: fields.map fun (key, value) => field [' ', ' '] key value

end ListItem

/-- A line with a key, cut at its seams. -/
structure KeyLine where
  /-- Everything through the colon. -/
  head : Text
  /-- The white space between the colon and the value. -/
  gap : Text
  value : Text
  /-- The trailing comment with the white space before it. -/
  comment : Text
  deriving DecidableEq, Repr

namespace KeyLine

def ofLine? (l : OutlineLine) : Option KeyLine :=
  match l.kind with
  | .key _ colon =>
    let content := l.line.content
    let (raw, comment) := Scalar.splitComment (Text.after (colon + 1) content)
    let value := Text.trimStart raw
    some
      { head := Text.before (colon + 1) content
        gap := raw.take (raw.length - value.length)
        value
        comment }
  | _ => none

def withValue (k : KeyLine) (value : Text) : Text :=
  k.head ++ (if k.gap.isEmpty then [' '] else k.gap) ++ value ++ k.comment

end KeyLine

namespace Patch

/-- The key line at `index` of an outline. -/
def keyLine (o : Outline) (index : Nat) (module path : Text) :
    Except Miss (OutlineLine × KeyLine) :=
  match o[index]? with
  | none => .error (.pathNotFound module path)
  | some l =>
    match KeyLine.ofLine? l with
    | none => .error (.pathNotFound module path)
    | some k => .ok (l, k)

/-- The edit that gives the field at `path` of a module a new value. -/
def setScalar (t module path : Text) (value : Scalar) : Except Miss Edit := do
  let o := Outline.ofText t
  let (_, index) ← o.locate module path
  let (l, k) ← keyLine o index module path
  return ⟨l.line.contentSpan, k.withValue (value.render (Quote.ofText k.value))⟩

/-- The lines of a block, each ended by `ending`; the last one is left open when
`open_` holds. -/
def block (indent : Nat) (ending : Text) (open_ : Bool) (rendered : List Text) : Text :=
  let padded := rendered.map (List.replicate indent ' ' ++ ·)
  if open_ then Text.joinWith ending padded else padded.flatMap (· ++ ending)

/-- The edit of a key line above the lines `rendered`: without lines the key
gets the value `empty`, with lines it loses its value. -/
def headEdits (key : OutlineLine) (parts : KeyLine) (rendered : List Text) (empty : Text) :
    List Edit :=
  let head := if rendered.isEmpty then parts.withValue empty else parts.head ++ parts.comment
  if head = key.line.content then [] else [⟨key.line.contentSpan, head⟩]

/-- The edit that puts the lines `rendered` in the place of a body.  The lines
of a new body follow the key line, and a document that ends without a line
ending still does. -/
def bodyEdits (o : Outline) (key : OutlineLine) (body : Body) (rendered : List Text) : List Edit :=
  let ending := key.line.terminator.orLf.toText
  if body.lines.start = body.lines.stop then
    if rendered.isEmpty then []
    else
      let at_ : Span := ⟨key.line.span.stop, key.line.span.stop⟩
      if key.line.terminator = .none then
        [⟨at_, ending ++ block body.indent ending true rendered⟩]
      else [⟨at_, block body.indent ending false rendered⟩]
  else
    match o[body.lines.start]?, o[body.lines.stop - 1]? with
    | some first, some last =>
      let open_ := last.line.terminator == .none
      [⟨⟨first.line.start, last.line.span.stop⟩, block body.indent ending open_ rendered⟩]
    | _, _ => []

/-- The edits that put the lines `rendered` in the place of a block. -/
def blockEdits (o : Outline) (key : OutlineLine) (parts : KeyLine) (body : Body)
    (rendered : List Text) (empty : Text) : List Edit :=
  headEdits key parts rendered empty ++ bodyEdits o key body rendered

/-- Whether the value on a key line leaves room for a block: it is empty or in
flow style. -/
def admitsBlock (opening : Char) (k : KeyLine) : Bool :=
  k.value.isEmpty || k.value.head? == some opening

/-- The edits that give the list at `path` of a module new items. -/
def replaceList (t module path : Text) (items : List ListItem) : Except Miss (List Edit) := do
  let o := Outline.ofText t
  let (range, index) ← o.locate module path
  let (l, k) ← keyLine o index module path
  if !admitsBlock '[' k then throw (.notAList module path)
  let body := o.body index range.stop .sequence
  return blockEdits o l k body (items.flatMap ListItem.render) ['[', ']']

/-- A text without the quotes around it. -/
def unquote (t : Text) : Text :=
  ((Text.unwrap? '"' t).orElse fun _ => Text.unwrap? '\'' t).getD t

def bodyLines (o : Outline) (body : Body) : List OutlineLine :=
  (o.take body.lines.stop).drop body.lines.start

/-- The comment behind each entry of an order list, in document order. -/
def orderNotes (o : Outline) (body : Body) : List (Text × Text) :=
  (bodyLines o body).filterMap fun l =>
    if l.indent = body.indent ∧ l.isItem then
      (Text.dropPrefix? ['-'] (Text.trimStart l.line.content)).map fun rest =>
        let (value, comment) := Scalar.splitComment rest
        (unquote (Text.trim value), comment)
    else none

/-- The comment behind each entry of a flag map, in document order. -/
def flagNotes (o : Outline) (body : Body) : List (Text × Text) :=
  (bodyLines o body).filterMap fun l =>
    if l.indent = body.indent then
      match l.key?, KeyLine.ofLine? l with
      | some key, some k => some (key, k.comment)
      | _, _ => none
    else none

/-- The comment of a name; of several, the last one counts. -/
def noteOf (notes : List (Text × Text)) (name : Text) : Text :=
  notes.foldl (fun note entry => if entry.1 = name then entry.2 else note) []

/-- The edits that give an order list and the flag map beside it new entries; a
comment stays with its name in either block. -/
def reorder (t module orderPath mapPath : Text) (entries : List (Text × Bool)) :
    Except Miss (List Edit) := do
  let o := Outline.ofText t
  let (range, orderIndex) ← o.locate module orderPath
  let (_, mapIndex) ← o.locate module mapPath
  let (orderLine, orderKey) ← keyLine o orderIndex module orderPath
  let (mapLine, mapKey) ← keyLine o mapIndex module mapPath
  if !admitsBlock '[' orderKey then throw (.notAList module orderPath)
  if !admitsBlock '\x7b' mapKey then throw (.notAList module mapPath)
  let orderBody := o.body orderIndex range.stop .sequence
  let mapBody := o.body mapIndex range.stop .mapping
  let notes := orderNotes o orderBody
  let flags := flagNotes o mapBody
  let written (name : Text) : Text := (Scalar.str name).render .plain
  let orderLines := entries.map fun (name, _) =>
    '-' :: ' ' :: written name ++ noteOf notes name
  let flagLines := entries.map fun (name, enabled) =>
    written name ++ [':', ' '] ++ (Scalar.bool enabled).render .plain ++ noteOf flags name
  return blockEdits o orderLine orderKey orderBody orderLines ['[', ']'] ++
    blockEdits o mapLine mapKey mapBody flagLines ['\x7b', '\x7d']

end Patch

end Marginalia.Yaml
