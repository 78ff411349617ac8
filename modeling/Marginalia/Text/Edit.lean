import Marginalia.Text.Line

/-!
# Edits

An edit replaces the bytes of a span by a new text.  A list of edits is
expressed against one text and applied in the order of their starts; edits with
the same start keep the order in which they were given.  `Edit.between?` is the
smallest edit that turns one text into another: what the texts share at the
front and at the back stays.
-/

namespace Marginalia

/-- A replacement of the bytes of `span` by `insert`. -/
structure Edit where
  span : Span
  insert : Text
  deriving DecidableEq, Repr

namespace Edit

def apply (e : Edit) (t : Text) : Text :=
  Text.before e.span.start t ++ e.insert ++ Text.after e.span.stop t

/-- Insertion of an edit behind the edits that start no later. -/
def insertByStart (e : Edit) : List Edit → List Edit
  | [] => [e]
  | d :: ds => if d.span.start ≤ e.span.start then d :: insertByStart e ds else e :: d :: ds

/-- The edits in the order of their starts; edits with one start keep their
order. -/
def sortByStart (es : List Edit) : List Edit :=
  es.foldl (fun sorted e => insertByStart e sorted) []

/-- The text from byte offset `cursor` on, with edits applied that are sorted by
their starts. -/
def applySorted (t : Text) (cursor : Nat) : List Edit → Text
  | [] => Text.after cursor t
  | e :: es => Text.slice t cursor e.span.start ++ e.insert ++ applySorted t e.span.stop es

/-- The text after all edits, each expressed against `t`, which do not
overlap. -/
def applyAll (es : List Edit) (t : Text) : Text :=
  applySorted t 0 (sortByStart es)

/-- Whether sorted edits can be applied from byte offset `cursor` on: each
starts no earlier than the one before it stops, and no offset cuts a
character. -/
def fitsSorted (t : Text) (cursor : Nat) : List Edit → Bool
  | [] => t.isBoundary cursor
  | e :: es =>
    decide (cursor ≤ e.span.start) && t.isBoundary cursor && t.isBoundary e.span.start &&
      fitsSorted t e.span.stop es

/-- The text after all edits, each expressed against `t`; none when two of them
overlap or one cuts a character. -/
def applyAll? (es : List Edit) (t : Text) : Option Text :=
  if fitsSorted t 0 (sortByStart es) then some (applyAll es t) else none

/-- The longest common start of two texts. -/
def commonPrefix : Text → Text → Text
  | a :: s, b :: t => if a = b then a :: commonPrefix s t else []
  | _, _ => []

/-- The longest common end of two texts. -/
def commonSuffix (s t : Text) : Text :=
  (commonPrefix s.reverse t.reverse).reverse

/-- The smallest edit that turns `old` into `new`; none when they are equal.
The common end is sought in what follows the common start, so the two never
overlap. -/
def between? (old new : Text) : Option Edit :=
  if old = new then none
  else
    let front := commonPrefix old new
    let oldRest := old.drop front.length
    let newRest := new.drop front.length
    let back := commonSuffix oldRest newRest
    some
      { span := ⟨front.size, old.size - back.size⟩
        insert := newRest.take (newRest.length - back.length) }

end Edit

end Marginalia
