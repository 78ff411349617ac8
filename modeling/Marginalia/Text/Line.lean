import Marginalia.Text.Basic

/-!
# Lines

A text is the concatenation of its lines, each with its terminator.  A line ends
after a line feed; a carriage return directly before the line feed belongs to
the terminator, and the last line may have none.  `Line` keeps content and
terminator apart, so that the content can change while the ending stays,
together with the byte offset at which the line starts.
-/

namespace Marginalia

/-- The bytes from `start` up to `stop`. -/
structure Span where
  start : Nat
  stop : Nat
  deriving DecidableEq, Repr

namespace Span

/-- The number of bytes of a span; a span that ends before it starts has
none. -/
def size (s : Span) : Nat :=
  s.stop - s.start

def isEmpty (s : Span) : Bool :=
  s.size == 0

end Span

inductive Terminator where
  | none
  | lf
  | crlf
  deriving DecidableEq, Repr

namespace Terminator

def toText : Terminator → Text
  | none => []
  | lf => ['\n']
  | crlf => ['\r', '\n']

/-- The ending that a line written after this one gets: a line without a
terminator is continued with a line feed. -/
def orLf : Terminator → Terminator
  | none => lf
  | t => t

end Terminator

structure Line where
  /-- The number of the line, from zero. -/
  index : Nat
  /-- The byte offset of the line in its text. -/
  start : Nat
  content : Text
  terminator : Terminator
  deriving DecidableEq, Repr

namespace Line

def raw (l : Line) : Text :=
  l.content ++ l.terminator.toText

/-- The bytes of the content. -/
def contentSpan (l : Line) : Span :=
  ⟨l.start, l.start + l.content.size⟩

/-- The bytes of the content and the terminator. -/
def span (l : Line) : Span :=
  ⟨l.start, l.start + l.raw.size⟩

/-- A line whose content is white space. -/
def isBlank (l : Line) : Bool :=
  Text.isBlank l.content

end Line

namespace Text

/-- A text cut after every line feed; the last piece need not end with one, and
no piece is empty. -/
def pieces : Text → List Text
  | [] => []
  | c :: t =>
    if c = '\n' then ['\n'] :: pieces t
    else
      match pieces t with
      | [] => [[c]]
      | piece :: rest => (c :: piece) :: rest

def splitTerminator (piece : Text) : Text × Terminator :=
  match dropSuffix? ['\r', '\n'] piece with
  | some content => (content, .crlf)
  | none =>
    match dropSuffix? ['\n'] piece with
    | some content => (content, .lf)
    | none => (piece, .none)

/-- The lines of consecutive pieces, the first of them being line `index` at
offset `start`. -/
def linesFrom (index start : Nat) : List Text → List Line
  | [] => []
  | piece :: rest =>
    let (content, terminator) := splitTerminator piece
    ⟨index, start, content, terminator⟩ :: linesFrom (index + 1) (start + piece.size) rest

def lines (t : Text) : List Line :=
  linesFrom 0 0 t.pieces

theorem flatten_pieces (t : Text) : t.pieces.flatten = t := by
  induction t with
  | nil => rfl
  | cons c t ih =>
    by_cases hc : c = '\n'
    · simp [pieces, hc, ih]
    · simp only [pieces, hc, if_false]
      cases hp : pieces t with
      | nil => simpa [hp] using ih
      | cons piece rest => simpa [hp] using ih

end Text

end Marginalia
