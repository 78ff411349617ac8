import Marginalia.Proofs.Text.Parts
import Marginalia.Text.Buffer

/-!
# Lines partition a text

The lines of a text stand one behind another from its first byte to its last
one.  Each is numbered by its place, and its offsets cut its content and its
terminator out of the text.

A buffer reaches the spans of its lines on another way, with an offset that runs
along the pieces into which its text is cut behind each line feed.  There is one
such cut only, so both ways lead to the same spans.
-/

namespace Marginalia

namespace Span

/-- Spans that follow one another from `start` to `stop`, without a gap and none
of them empty. -/
inductive Tiles : (start stop : Nat) → List Span → Prop
  | nil (n : Nat) : Tiles n n []
  | cons {start next stop : Nat} {rest : List Span} (hsize : start < next)
      (hrest : Tiles next stop rest) : Tiles start stop (⟨start, next⟩ :: rest)

theorem tiles_consecutive {ps : List Text} (hps : ∀ p ∈ ps, p ≠ []) (start : Nat) :
    Tiles start (start + Text.size ps.flatten) (consecutive start ps) := by
  induction ps generalizing start with
  | nil => exact .nil start
  | cons p ps ih =>
      obtain ⟨hp, hps⟩ := List.forall_mem_cons.mp hps
      have hpos := Text.size_pos_of_ne_nil hp
      rw [List.flatten_cons, Text.size_append, ← Nat.add_assoc]
      exact .cons (Nat.lt_add_of_pos_right hpos) (ih hps (start + Text.size p))

end Span

namespace Text

/-! ## One cut behind each line feed -/

/-- A text is cut into pieces behind each of its line feeds, and no piece is
empty. -/
inductive CutBehindLf : Text → List Text → Prop
  | nil : CutBehindLf [] []
  | last {body : Text} (hne : body ≠ []) (hlf : '\n' ∉ body) : CutBehindLf body [body]
  | cons {body rest : Text} {ps : List Text} (hlf : '\n' ∉ body) (hrest : CutBehindLf rest ps) :
      CutBehindLf (body ++ '\n' :: rest) ((body ++ ['\n']) :: ps)

theorem CutBehindLf.eq_pieces {t : Text} {ps : List Text} (h : CutBehindLf t ps) :
    ps = t.pieces := by
  induction h with
  | nil => rfl
  | last hne hlf => rw [pieces_of_not_mem_lf hne hlf]
  | cons hlf _ ih => rw [pieces_append_lf hlf, ih]

theorem cutBehindLf_pieces (t : Text) : CutBehindLf t t.pieces := by
  induction hn : t.length using Nat.strongRecOn generalizing t with
  | ind n ih =>
      rcases pieces_cases t with rfl | ⟨hne, hlf, ht⟩ | ⟨body, rest, hlf, rfl, ht⟩
      · exact .nil
      · rw [ht]
        exact .last hne hlf
      · have hshort : rest.length < n := by
          rw [← hn, List.length_append, List.length_cons]
          omega
        rw [ht]
        exact .cons hlf (ih rest.length hshort rest rfl)

theorem cutBehindLf_iff {t : Text} {ps : List Text} : CutBehindLf t ps ↔ ps = t.pieces := by
  constructor
  · exact CutBehindLf.eq_pieces
  · rintro rfl
    exact cutBehindLf_pieces t

/-! ## The lines of a text -/

/-- Lines that make up a text: numbered in order, one behind another, each where
its offsets say, and each ended by the first line feed behind its start. -/
structure PartitionedBy (t : Text) (ls : List Line) : Prop where
  index : ls.map Line.index = List.range ls.length
  tiles : Span.Tiles 0 t.size (ls.map Line.span)
  text : (ls.flatMap fun l => l.content ++ l.terminator.toText) = t
  slice_span : ∀ l ∈ ls, t.slice l.span.start l.span.stop = l.content ++ l.terminator.toText
  slice_contentSpan : ∀ l ∈ ls, t.slice l.contentSpan.start l.contentSpan.stop = l.content
  lf_not_mem : ∀ l ∈ ls, '\n' ∉ l.content
  /-- Only the last line may be open. -/
  ended : ∀ l ∈ ls.dropLast, l.terminator ≠ .none
  /-- A carriage return before a line feed belongs to the terminator. -/
  lf_alone : ∀ l ∈ ls, l.terminator = .lf → l.content.getLast? ≠ some '\r'

theorem map_index_linesFrom (index start : Nat) (ps : List Text) :
    (linesFrom index start ps).map Line.index = List.range' index ps.length := by
  induction ps generalizing index start with
  | nil => rfl
  | cons p ps ih => rw [linesFrom, List.map_cons, ih, List.length_cons, List.range'_succ]

theorem map_span_linesFrom (index start : Nat) (ps : List Text) :
    (linesFrom index start ps).map Line.span = Span.consecutive start ps := by
  induction ps generalizing index start with
  | nil => rfl
  | cons p ps ih =>
      have hraw := content_append_terminator p
      rw [linesFrom, List.map_cons, ih, Span.consecutive, Line.span, Line.raw, hraw]

theorem slice_span {t : Text} {k : Nat} {l : Line} (h : t.lines[k]? = some l) :
    slice t l.span.start l.span.stop = l.raw := by
  have hstart : l.start = t.lineOffset k := start_eq_lineOffset h
  have hbelow : t.lines.drop k = l :: t.lines.drop (k + 1) := by
    obtain ⟨hk, rfl⟩ := List.getElem?_eq_some_iff.mp h
    exact List.drop_eq_getElem_cons hk
  have hsize : l.start + l.raw.size - l.start = l.raw.size := by omega
  simp only [slice, Line.span, hsize]
  rw [hstart, after_lineOffset, hbelow]
  exact before_size_append l.raw (joinLines (t.lines.drop (k + 1)))

theorem partitionedBy_lines (t : Text) : t.PartitionedBy t.lines := by
  constructor
  · have hlength := congrArg List.length (map_raw_lines t)
    rw [List.length_map] at hlength
    rw [hlength, List.range_eq_range']
    exact map_index_linesFrom 0 0 t.pieces
  · have htiles := Span.tiles_consecutive (fun _ => ne_nil_of_mem_pieces (t := t)) 0
    rw [flatten_pieces, Nat.zero_add] at htiles
    rw [lines, map_span_linesFrom]
    exact htiles
  · exact joinLines_lines t
  · intro l hl
    obtain ⟨k, hk⟩ := List.getElem?_of_mem hl
    exact slice_span hk
  · intro l hl
    obtain ⟨k, hk⟩ := List.getElem?_of_mem hl
    exact slice_contentSpan hk
  · exact fun l => not_mem_content_of_mem_lines
  · intro l hl
    rw [List.dropLast_eq_take] at hl
    have hlast : t.lines.length - 1 < t.lines.length := by
      have hlength := List.length_pos_of_mem (List.mem_of_mem_take hl)
      omega
    exact ended_stretch 0 hlast l.parts (List.mem_map_of_mem hl)
  · exact fun l => getLast?_content_of_lf

end Text

namespace Buffer

open Text (CutBehindLf PartitionedBy)

theorem lineSpans_eq (b : Buffer) : b.lineSpans = b.text.lines.map Line.span :=
  (Text.map_span_linesFrom 0 0 b.text.pieces).symm

theorem lineSpan?_eq (b : Buffer) (index : Nat) :
    b.lineSpan? index = (b.text.lines[index]?).map Line.span := by
  rw [lineSpan?, lineSpans_eq, List.getElem?_map]

/-- The lines of every text partition it.  A text is cut behind its line feeds
in one way, and the spans of the pieces that a buffer counts along are those of
the lines; past the last line there is none. -/
theorem lines_partition :
    (∀ t : Text, t.PartitionedBy t.lines) ∧
      (∀ (t : Text) (ps : List Text), CutBehindLf t ps ↔ ps = t.pieces) ∧
      ∀ (b : Buffer) (index : Nat),
        b.lineSpan? index = (b.text.lines[index]?).map Line.span := by
  refine ⟨Text.partitionedBy_lines, ?_, lineSpan?_eq⟩
  intro t ps
  exact Text.cutBehindLf_iff

end Buffer

end Marginalia
