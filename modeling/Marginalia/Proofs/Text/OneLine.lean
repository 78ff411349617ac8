import Marginalia.Proofs.Text.Lines
import Marginalia.Text.Edit

/-!
# A text with one line rewritten

The content of one line is replaced and its terminator stays.  As long as the
new content cannot be taken for two lines, or for a part of the terminator, the
other lines come back as they were: the text has the same lines with one of them
set.
-/

namespace Marginalia

namespace Line

/-- What a line consists of, wherever it stands in a text. -/
def parts (l : Line) : Text × Terminator :=
  (l.content, l.terminator)

/-- Another content can stand before the terminator of a line without being read
as several lines or as a part of the terminator. -/
structure Admits (l : Line) (content : Text) : Prop where
  ne_nil : content ≠ []
  not_mem_lf : '\n' ∉ content
  getLast?_ne : l.terminator = .lf → content.getLast? ≠ some '\r'

end Line

namespace Text

/-! ## Pieces -/

theorem pieces_of_not_mem_lf {t : Text} (hne : t ≠ []) (hlf : '\n' ∉ t) : t.pieces = [t] := by
  induction t with
  | nil => exact absurd rfl hne
  | cons c t ih =>
      have hc : ¬c = '\n' := fun h => hlf (by simp [h])
      by_cases ht : t = []
      · simp [pieces, hc, ht]
      · have hrest := ih ht fun h => hlf (by simp [h])
        simp [pieces, hc, hrest]

/-- A text is empty, one open line, or a line that is ended by a line feed with
a text below. -/
theorem pieces_cases (t : Text) :
    t = [] ∨ (t ≠ [] ∧ '\n' ∉ t ∧ t.pieces = [t]) ∨
      ∃ (body rest : Text), '\n' ∉ body ∧ t = body ++ '\n' :: rest ∧
        t.pieces = (body ++ ['\n']) :: rest.pieces := by
  by_cases hlf : '\n' ∈ t
  · obtain ⟨body, rest, ht, hbody⟩ := List.eq_append_cons_of_mem hlf
    refine Or.inr (Or.inr ⟨body, rest, hbody, ht, ?_⟩)
    rw [ht]
    exact pieces_append_lf hbody rest
  · by_cases hne : t = []
    · exact Or.inl hne
    · exact Or.inr (Or.inl ⟨hne, hlf, pieces_of_not_mem_lf hne hlf⟩)

/-- Two pieces that end alike: both with a line feed, or both open. -/
def EndAlike (piece new : Text) : Prop :=
  (∃ body body', '\n' ∉ body' ∧ piece = body ++ ['\n'] ∧ new = body' ++ ['\n']) ∨
    ('\n' ∉ piece ∧ '\n' ∉ new ∧ new ≠ [])

/-- A piece in the place of one that ends alike is cut out of the text again. -/
theorem pieces_flatten_set {t piece new : Text} {k : Nat} (h : t.pieces[k]? = some piece)
    (hnew : EndAlike piece new) : pieces (t.pieces.set k new).flatten = t.pieces.set k new := by
  induction k generalizing t with
  | zero =>
      rcases pieces_cases t with rfl | ⟨-, hlf, ht⟩ | ⟨body, rest, hbody, -, ht⟩
      · simp [pieces] at h
      · obtain rfl : t = piece := by simpa [ht] using h
        rcases hnew with ⟨body, body', -, rfl, -⟩ | ⟨-, hlf', hne⟩
        · simp at hlf
        · simpa [ht] using pieces_of_not_mem_lf hne hlf'
      · obtain rfl : body ++ ['\n'] = piece := by simpa [ht] using h
        rcases hnew with ⟨-, body', hbody', -, rfl⟩ | ⟨hlf, -⟩
        · have hflat : ((body' ++ ['\n']) :: rest.pieces).flatten = body' ++ '\n' :: rest := by
            simp [flatten_pieces]
          rw [ht, List.set_cons_zero, hflat, pieces_append_lf hbody']
        · simp at hlf
  | succ k ih =>
      rcases pieces_cases t with rfl | ⟨-, -, ht⟩ | ⟨body, rest, hbody, -, ht⟩
      · simp [pieces] at h
      · simp [ht] at h
      · have hrest := ih (t := rest) (by simpa [ht] using h)
        have hflat : ((body ++ ['\n']) :: rest.pieces.set k new).flatten =
            body ++ '\n' :: (rest.pieces.set k new).flatten := by
          simp
        rw [ht, List.set_cons_succ, hflat, pieces_append_lf hbody, hrest]

/-- Only the last piece has no line feed. -/
theorem length_pieces_of_not_mem_lf {t piece : Text} {k : Nat} (h : t.pieces[k]? = some piece)
    (hlf : '\n' ∉ piece) : t.pieces.length = k + 1 := by
  induction k generalizing t with
  | zero =>
      rcases pieces_cases t with rfl | ⟨-, -, ht⟩ | ⟨body, rest, -, -, ht⟩
      · simp [pieces] at h
      · simp [ht]
      · obtain rfl : body ++ ['\n'] = piece := by simpa [ht] using h
        simp at hlf
  | succ k ih =>
      rcases pieces_cases t with rfl | ⟨-, -, ht⟩ | ⟨body, rest, -, -, ht⟩
      · simp [pieces] at h
      · simp [ht] at h
      · have hrest := ih (t := rest) (by simpa [ht] using h)
        rw [ht, List.length_cons, hrest]

/-! ## Lines -/

theorem map_raw_lines (t : Text) : t.lines.map Line.raw = t.pieces :=
  map_raw_linesFrom 0 0 t.pieces

theorem map_parts_lines (t : Text) : t.lines.map Line.parts = t.pieces.map splitTerminator := by
  have hfrom : ∀ (ps : List Text) (index start : Nat),
      (linesFrom index start ps).map Line.parts = ps.map splitTerminator := by
    intro ps
    induction ps with
    | nil => intro index start; rfl
    | cons piece ps ih =>
        intro index start
        rw [linesFrom, List.map_cons, List.map_cons, ih]
        rfl
  exact hfrom t.pieces 0 0

/-- Nothing stands below a line without a terminator. -/
theorem drop_lines_of_terminator_eq_none {t : Text} {k : Nat} {l : Line}
    (h : t.lines[k]? = some l) (hopen : l.terminator = .none) : t.lines.drop (k + 1) = [] := by
  have hlf : '\n' ∉ l.raw := by
    have hcontent := not_mem_content_of_mem_lines (List.mem_of_getElem? h)
    simpa [Line.raw, hopen, Terminator.toText] using hcontent
  have hpiece : t.pieces[k]? = some l.raw := by
    rw [← map_raw_lines, List.getElem?_map, h]
    rfl
  have hlength := length_pieces_of_not_mem_lf hpiece hlf
  rw [← map_raw_lines, List.length_map] at hlength
  exact List.drop_eq_nil_of_le (by omega)

/-- The content of a line that is ended by a line feed alone does not end with a
carriage return. -/
theorem getLast?_content_of_lf {t : Text} {l : Line} (h : l ∈ t.lines)
    (hlf : l.terminator = .lf) : l.content.getLast? ≠ some '\r' := by
  have hparts : l.parts ∈ t.lines.map Line.parts := List.mem_map_of_mem h
  rw [map_parts_lines] at hparts
  obtain ⟨piece, -, hsplit⟩ := List.mem_map.mp hparts
  intro hcr
  obtain ⟨front, hfront⟩ := List.getLast?_eq_some_iff.mp hcr
  have hwritten := content_append_terminator piece
  rw [hsplit, Line.parts, hlf, hfront] at hwritten
  -- With the carriage return the piece would have been cut before both
  -- characters.
  have hcrlf : dropSuffix? ['\r', '\n'] piece = some front := by
    rw [dropSuffix?_eq_some_iff, ← hwritten]
    simp [Terminator.toText]
  simp [splitTerminator, hcrlf, Line.parts, hlf] at hsplit

/-- A line is told from its terminator when no line feed stands in it and a line
feed alone does not stand behind a carriage return. -/
theorem splitTerminator_append {content : Text} {terminator : Terminator} (hlf : '\n' ∉ content)
    (hcr : terminator = .lf → content.getLast? ≠ some '\r') :
    splitTerminator (content ++ terminator.toText) = (content, terminator) := by
  cases terminator with
  | none =>
      have hcrlf : dropSuffix? ['\r', '\n'] content = none := by
        rw [dropSuffix?_eq_none_iff]
        rintro front rfl
        exact hlf (by simp)
      have hfeed : dropSuffix? ['\n'] content = none := by
        rw [dropSuffix?_eq_none_iff]
        rintro front rfl
        exact hlf (by simp)
      simp [Terminator.toText, splitTerminator, hcrlf, hfeed]
  | lf => exact splitTerminator_append_lf (hcr rfl)
  | crlf =>
      have hcrlf : dropSuffix? ['\r', '\n'] (content ++ ['\r', '\n']) = some content :=
        dropSuffix?_eq_some_iff.mpr rfl
      simp [Terminator.toText, splitTerminator, hcrlf]

theorem endAlike_raw {t : Text} {l : Line} {content : Text} (hl : l ∈ t.lines)
    (h : l.Admits content) : EndAlike l.raw (content ++ l.terminator.toText) := by
  have hlf := not_mem_content_of_mem_lines hl
  cases hterminator : l.terminator with
  | none =>
      right
      simpa [Line.raw, hterminator, Terminator.toText] using ⟨hlf, h.not_mem_lf, h.ne_nil⟩
  | lf =>
      left
      refine ⟨l.content, content, h.not_mem_lf, ?_, rfl⟩
      simp [Line.raw, hterminator, Terminator.toText]
  | crlf =>
      left
      refine ⟨l.content ++ ['\r'], content ++ ['\r'], ?_, ?_, ?_⟩
      · simpa using h.not_mem_lf
      · simp [Line.raw, hterminator, Terminator.toText]
      · simp [Terminator.toText]

end Text

namespace Edit

/-- Replacing the content of a line leaves its terminator and everything above
and below. -/
theorem apply_contentSpan_eq_append {t : Text} {k : Nat} {l : Line} (h : t.lines[k]? = some l)
    (content : Text) :
    (⟨l.contentSpan, content⟩ : Edit).apply t =
      Text.joinLines (t.lines.take k) ++
        (content ++ (l.terminator.toText ++ Text.joinLines (t.lines.drop (k + 1)))) := by
  have htext := Text.joinLines_take_append_line h
  have hstart : l.contentSpan.start = (Text.joinLines (t.lines.take k)).size :=
    Text.start_eq_lineOffset h
  have hstop : l.contentSpan.stop = (Text.joinLines (t.lines.take k) ++ l.content).size := by
    rw [Text.size_append, ← hstart]
    rfl
  have hbefore : Text.before l.contentSpan.start t = Text.joinLines (t.lines.take k) := by
    have hcut := Text.before_size_append (Text.joinLines (t.lines.take k))
      (l.content ++ (l.terminator.toText ++ Text.joinLines (t.lines.drop (k + 1))))
    rwa [htext, ← hstart] at hcut
  have hafter : Text.after l.contentSpan.stop t =
      l.terminator.toText ++ Text.joinLines (t.lines.drop (k + 1)) := by
    have hcut := Text.after_size_append (Text.joinLines (t.lines.take k) ++ l.content)
      (l.terminator.toText ++ Text.joinLines (t.lines.drop (k + 1)))
    rwa [List.append_assoc, htext, ← hstop] at hcut
  rw [apply, hbefore, hafter, List.append_assoc]

theorem apply_contentSpan {t : Text} {k : Nat} {l : Line} (h : t.lines[k]? = some l)
    (content : Text) :
    (⟨l.contentSpan, content⟩ : Edit).apply t =
      (t.pieces.set k (content ++ l.terminator.toText)).flatten := by
  have hk : k < t.pieces.length := by
    rw [← Text.map_raw_lines, List.length_map]
    exact (List.getElem?_eq_some_iff.mp h).1
  have htake : (t.pieces.take k).flatten = Text.joinLines (t.lines.take k) := by
    rw [← Text.map_raw_lines, ← List.map_take, Text.joinLines, List.flatMap_def]
  have hdrop : (t.pieces.drop (k + 1)).flatten = Text.joinLines (t.lines.drop (k + 1)) := by
    rw [← Text.map_raw_lines, ← List.map_drop, Text.joinLines, List.flatMap_def]
  rw [apply_contentSpan_eq_append h, List.set_eq_take_append_cons_drop, if_pos hk,
    List.flatten_append, List.flatten_cons, htake, hdrop, List.append_assoc]

/-- A text with the content of a line replaced has the same lines, with that
line rewritten. -/
theorem map_parts_lines_apply {t : Text} {k : Nat} {l : Line} {content : Text}
    (h : t.lines[k]? = some l) (hcontent : l.Admits content) :
    ((⟨l.contentSpan, content⟩ : Edit).apply t).lines.map Line.parts =
      (t.lines.map Line.parts).set k (content, l.terminator) := by
  have hpiece : t.pieces[k]? = some l.raw := by
    rw [← Text.map_raw_lines, List.getElem?_map, h]
    rfl
  have hmem : l ∈ t.lines := List.mem_of_getElem? h
  have halike := Text.endAlike_raw hmem hcontent
  rw [apply_contentSpan h, Text.map_parts_lines, Text.pieces_flatten_set hpiece halike,
    List.map_set, Text.splitTerminator_append hcontent.not_mem_lf hcontent.getLast?_ne,
    ← Text.map_parts_lines]

end Edit

namespace Text

/-! ## The lines that stay -/

section

variable {t u : Text} {k : Nat} {content : Text} {terminator : Terminator}
  (hu : u.lines.map Line.parts = (t.lines.map Line.parts).set k (content, terminator))

include hu

theorem length_lines_of_set : u.lines.length = t.lines.length := by
  simpa using congrArg List.length hu

theorem parts_of_set_of_ne {j : Nat} (hj : j ≠ k) :
    (u.lines[j]?).map Line.parts = (t.lines[j]?).map Line.parts := by
  rw [← List.getElem?_map, ← List.getElem?_map, hu, List.getElem?_set_ne hj.symm]

theorem raw_of_set_of_ne {j : Nat} (hj : j ≠ k) :
    (u.lines[j]?).map Line.raw = (t.lines[j]?).map Line.raw := by
  have hparts := parts_of_set_of_ne hu hj
  have hraw := congrArg (Option.map fun p : Text × Terminator => p.1 ++ p.2.toText) hparts
  rwa [Option.map_map, Option.map_map] at hraw

theorem exists_line_of_set (hk : k < t.lines.length) :
    ∃ l, u.lines[k]? = some l ∧ l.content = content ∧ l.terminator = terminator := by
  have hparts : (u.lines.map Line.parts)[k]? = some (content, terminator) := by
    rw [hu, List.getElem?_set_self (by simpa using hk)]
  rw [List.getElem?_map, Option.map_eq_some_iff] at hparts
  obtain ⟨l, hl, hparts⟩ := hparts
  exact ⟨l, hl, congrArg Prod.fst hparts, congrArg Prod.snd hparts⟩

end

/-- A text is what its lines consist of. -/
theorem eq_of_map_parts_eq {t u : Text}
    (h : t.lines.map Line.parts = u.lines.map Line.parts) : t = u := by
  have hraw : ∀ s : Text, s = (s.lines.map Line.parts).flatMap fun p => p.1 ++ p.2.toText := by
    intro s
    rw [List.flatMap_map]
    exact (joinLines_lines s).symm
  rw [hraw t, hraw u, h]

end Text

end Marginalia
