import Marginalia.Text.Edit

/-!
# Buffers

A buffer holds the text of one document together with a version, which grows
with every change, and the version that was saved last.  Edits that would change
nothing are dropped, so a version stands for one text.
-/

namespace Marginalia

/-- What a change did to a buffer. -/
structure Patch where
  /-- The bytes of the inserted texts, in the text after the change. -/
  changed : List Span
  /-- The version after the change. -/
  version : Nat
  deriving DecidableEq, Repr

namespace Patch

def isNoop (p : Patch) : Bool :=
  p.changed.isEmpty

end Patch

namespace Edit

/-- Whether an edit puts other characters into a text than stand there. -/
def changes (t : Text) (e : Edit) : Bool :=
  Text.slice t e.span.start e.span.stop != e.insert

/-- The spans of the inserted texts after sorted edits, of which the earlier
ones added and removed some bytes. -/
def landing (added removed : Nat) : List Edit → List Span
  | [] => []
  | e :: es =>
    let start := e.span.start + added - removed
    ⟨start, start + e.insert.size⟩ ::
      landing (added + e.insert.size) (removed + e.span.size) es

end Edit

namespace Span

/-- The spans of texts that stand one behind another, the first of them at
offset `start`. -/
def consecutive (start : Nat) : List Text → List Span
  | [] => []
  | t :: rest => ⟨start, start + t.size⟩ :: consecutive (start + t.size) rest

end Span

/-- The text of a document, with the state of its saving. -/
structure Buffer where
  text : Text
  version : Nat
  savedVersion : Nat
  deriving DecidableEq, Repr

namespace Buffer

/-- A buffer that is saved. -/
def ofText (t : Text) : Buffer :=
  ⟨t, 0, 0⟩

def isDirty (b : Buffer) : Bool :=
  b.version != b.savedVersion

/-- The patch of a change that did nothing. -/
def noop (b : Buffer) : Patch :=
  ⟨[], b.version⟩

/-- Whether edits can be applied: every span is one of the text, and those that
change something do not overlap. -/
def accepts (b : Buffer) (es : List Edit) : Bool :=
  es.all (fun e => decide (e.span.start ≤ e.span.stop) && b.text.isBoundary e.span.start &&
    b.text.isBoundary e.span.stop) &&
    Edit.fitsSorted b.text 0 (Edit.sortByStart (es.filter (Edit.changes b.text)))

/-- The buffer after edits that it accepts, expressed against its text.  When
each of them leaves the text as it is, the version stays. -/
def apply (b : Buffer) (es : List Edit) : Patch × Buffer :=
  let effective := Edit.sortByStart (es.filter (Edit.changes b.text))
  if effective.isEmpty then (b.noop, b)
  else
    (⟨Edit.landing 0 0 effective, b.version + 1⟩,
      { b with text := Edit.applySorted b.text 0 effective, version := b.version + 1 })

/-- The buffer with another text, reached by one smallest edit. -/
def setText (b : Buffer) (t : Text) : Patch × Buffer :=
  b.apply (Edit.between? b.text t).toList

/-- The buffer with another text as a whole.  The version grows even when the
text is the same. -/
def replaceAll (b : Buffer) (t : Text) : Patch × Buffer :=
  (⟨[⟨0, t.size⟩], b.version + 1⟩, { b with text := t, version := b.version + 1 })

def markSaved (b : Buffer) : Buffer :=
  { b with savedVersion := b.version }

/-- The bytes of each line with its terminator, in order. -/
def lineSpans (b : Buffer) : List Span :=
  Span.consecutive 0 b.text.pieces

/-- The bytes of a line with its terminator. -/
def lineSpan? (b : Buffer) (index : Nat) : Option Span :=
  b.lineSpans[index]?

end Buffer

end Marginalia
