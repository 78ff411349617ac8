import Marginalia.Text.Line

/-!
# Texts and their lines

The lines of a text stand one behind the other: written out again they are the
text, and line `k` takes the bytes between `lineOffset k` and
`lineOffset (k + 1)`.  The other direction is the reading of written lines:
contents without a line feed, and without a carriage return at the end, come
back from the text that puts a line feed behind each of them.
-/

namespace Marginalia

namespace Text

/-! ## Affixes -/

theorem dropPrefix?_eq_some_iff {start t rest : Text} :
    dropPrefix? start t = some rest ↔ t = start ++ rest := by
  induction start generalizing t with
  | nil => simp [dropPrefix?]
  | cons p start ih =>
      cases t with
      | nil => simp [dropPrefix?]
      | cons c t =>
          by_cases hc : p = c
          · simp [dropPrefix?, hc, ih]
          · have hc' : ¬c = p := fun h => hc h.symm
            simp [dropPrefix?, hc, hc']

theorem dropSuffix?_eq_some_iff {tail t front : Text} :
    dropSuffix? tail t = some front ↔ t = front ++ tail := by
  rw [dropSuffix?, Option.map_eq_some_iff]
  constructor
  · rintro ⟨r, hr, rfl⟩
    have hrev : t.reverse = tail.reverse ++ r := dropPrefix?_eq_some_iff.mp hr
    have ht := congrArg List.reverse hrev
    simpa using ht
  · rintro rfl
    exact ⟨front.reverse, dropPrefix?_eq_some_iff.mpr (by simp), by simp⟩

/-- A text that does not end with `tail` keeps it all. -/
theorem dropSuffix?_eq_none_iff {tail t : Text} :
    dropSuffix? tail t = none ↔ ∀ front, t ≠ front ++ tail := by
  constructor
  · intro hnone front ht
    rw [dropSuffix?_eq_some_iff.mpr ht] at hnone
    exact Option.some_ne_none _ hnone
  · intro h
    cases hsome : dropSuffix? tail t with
    | none => rfl
    | some front => exact absurd (dropSuffix?_eq_some_iff.mp hsome) (h front)

theorem unwrap?_eq_some_iff {m : Char} {t w : Text} :
    unwrap? m t = some w ↔ t = m :: (w ++ [m]) := by
  rw [unwrap?, Option.bind_eq_some_iff]
  constructor
  · rintro ⟨r, hr, hw⟩
    rw [dropPrefix?_eq_some_iff.mp hr, dropSuffix?_eq_some_iff.mp hw]
    rfl
  · rintro rfl
    exact ⟨w ++ [m], dropPrefix?_eq_some_iff.mpr rfl, dropSuffix?_eq_some_iff.mpr rfl⟩

/-! ## Pieces -/

theorem content_append_terminator (piece : Text) :
    (splitTerminator piece).1 ++ (splitTerminator piece).2.toText = piece := by
  unfold splitTerminator
  cases hcrlf : dropSuffix? ['\r', '\n'] piece with
  | some content => exact (dropSuffix?_eq_some_iff.mp hcrlf).symm
  | none =>
      cases hlf : dropSuffix? ['\n'] piece with
      | some content => exact (dropSuffix?_eq_some_iff.mp hlf).symm
      | none => simp [Terminator.toText]

theorem ne_nil_of_mem_pieces {t piece : Text} (h : piece ∈ t.pieces) : piece ≠ [] := by
  induction t generalizing piece with
  | nil => simp [pieces] at h
  | cons c t ih =>
      by_cases hc : c = '\n'
      · simp only [pieces, hc, if_true, List.mem_cons] at h
        rcases h with rfl | h
        · simp
        · exact ih h
      · simp only [pieces, hc, if_false] at h
        cases hp : pieces t with
        | nil =>
            simp only [hp, List.mem_singleton] at h
            simp [h]
        | cons first rest =>
            simp only [hp, List.mem_cons] at h
            rcases h with rfl | h
            · simp
            · exact ih (by simp [hp, h])

/-- A piece is a text without a line feed, with one behind it unless it is the
last. -/
theorem exists_of_mem_pieces {t piece : Text} (h : piece ∈ t.pieces) :
    ∃ body, '\n' ∉ body ∧ (piece = body ∨ piece = body ++ ['\n']) := by
  induction t generalizing piece with
  | nil => simp [pieces] at h
  | cons c t ih =>
      by_cases hc : c = '\n'
      · simp only [pieces, hc, if_true, List.mem_cons] at h
        rcases h with rfl | h
        · exact ⟨[], by simp, Or.inr rfl⟩
        · exact ih h
      · have hc' : ¬ '\n' = c := fun h => hc h.symm
        simp only [pieces, hc, if_false] at h
        cases hp : pieces t with
        | nil =>
            simp only [hp, List.mem_singleton] at h
            exact ⟨[c], by simp [hc'], Or.inl h⟩
        | cons first rest =>
            simp only [hp, List.mem_cons] at h
            rcases h with rfl | h
            · obtain ⟨body, hbody, hfirst⟩ := ih (show first ∈ pieces t by simp [hp])
              refine ⟨c :: body, by simp [hc', hbody], ?_⟩
              rcases hfirst with rfl | rfl
              · exact Or.inl rfl
              · exact Or.inr rfl
            · exact ih (by simp [hp, h])

theorem pieces_append_lf {body : Text} (hbody : '\n' ∉ body) (rest : Text) :
    (body ++ '\n' :: rest).pieces = (body ++ ['\n']) :: rest.pieces := by
  induction body with
  | nil => simp [pieces]
  | cons c body ih =>
      have hc : ¬c = '\n' := fun h => hbody (by simp [h])
      have hrest : '\n' ∉ body := fun h => hbody (by simp [h])
      simp [pieces, hc, ih hrest]

/-- A content that does not end with a carriage return is told from the line
feed behind it. -/
theorem splitTerminator_append_lf {body : Text} (hbody : body.getLast? ≠ some '\r') :
    splitTerminator (body ++ ['\n']) = (body, .lf) := by
  have hcrlf : dropSuffix? ['\r', '\n'] (body ++ ['\n']) = none := by
    rw [dropSuffix?_eq_none_iff]
    intro front h
    have hfront : body ++ ['\n'] = (front ++ ['\r']) ++ ['\n'] := by simpa using h
    have hsame : body = front ++ ['\r'] := List.append_cancel_right hfront
    exact hbody (by simp [hsame])
  have hlf : dropSuffix? ['\n'] (body ++ ['\n']) = some body :=
    dropSuffix?_eq_some_iff.mpr rfl
  simp [splitTerminator, hcrlf, hlf]

theorem not_mem_content_of_mem_pieces {t piece : Text} (h : piece ∈ t.pieces) :
    '\n' ∉ (splitTerminator piece).1 := by
  obtain ⟨body, hbody, hpiece⟩ := exists_of_mem_pieces h
  have hsplit := content_append_terminator piece
  -- A content with a line feed would put a second one into the piece, or one
  -- before its end.
  intro hmem
  obtain ⟨front, back, hcontent⟩ := List.append_of_mem hmem
  rw [hcontent] at hsplit
  rcases hpiece with rfl | rfl
  · exact hbody (by rw [← hsplit]; simp)
  · cases hterm : (splitTerminator (body ++ ['\n'])).2 with
    | none =>
        -- The content is the piece only when the piece does not end with a line
        -- feed.
        unfold splitTerminator at hterm
        rw [dropSuffix?_eq_some_iff.mpr (rfl : body ++ ['\n'] = body ++ ['\n'])] at hterm
        cases hcrlf : dropSuffix? ['\r', '\n'] (body ++ ['\n']) with
        | none => simp [hcrlf] at hterm
        | some content => simp [hcrlf] at hterm
    | lf =>
        rw [hterm] at hsplit
        have hfront : (front ++ '\n' :: back) ++ ['\n'] = body ++ ['\n'] := hsplit
        exact hbody (by rw [← List.append_cancel_right hfront]; simp)
    | crlf =>
        rw [hterm] at hsplit
        have hfront : (front ++ '\n' :: back ++ ['\r']) ++ ['\n'] = body ++ ['\n'] := by
          simpa [Terminator.toText] using hsplit
        exact hbody (by rw [← List.append_cancel_right hfront]; simp)

/-! ## Lines -/

@[simp] theorem map_raw_linesFrom (index start : Nat) (ps : List Text) :
    (linesFrom index start ps).map Line.raw = ps := by
  induction ps generalizing index start with
  | nil => rfl
  | cons piece ps ih =>
      have hpiece := content_append_terminator piece
      simp [linesFrom, Line.raw, hpiece, ih]

def joinLines (ls : List Line) : Text :=
  ls.flatMap Line.raw

@[simp] theorem joinLines_append (ls ms : List Line) :
    joinLines (ls ++ ms) = joinLines ls ++ joinLines ms := by
  simp [joinLines]

@[simp] theorem joinLines_singleton (l : Line) : joinLines [l] = l.raw := by
  simp [joinLines]

theorem joinLines_lines (t : Text) : joinLines t.lines = t := by
  have hraw : t.lines.map Line.raw = t.pieces := map_raw_linesFrom 0 0 t.pieces
  rw [joinLines, List.flatMap_def, hraw, flatten_pieces]

theorem joinLines_take_append_drop (t : Text) (k : Nat) :
    joinLines (t.lines.take k) ++ joinLines (t.lines.drop k) = t := by
  rw [← joinLines_append, List.take_append_drop, joinLines_lines]

/-- The byte offset at which line `k` starts; past the last line, the size of
the text. -/
def lineOffset (t : Text) (k : Nat) : Nat :=
  (joinLines (t.lines.take k)).size

theorem start_of_getElem?_linesFrom {index start k : Nat} {ps : List Text} {l : Line}
    (h : (linesFrom index start ps)[k]? = some l) :
    l.start = start + (joinLines ((linesFrom index start ps).take k)).size := by
  induction ps generalizing index start k with
  | nil => simp [linesFrom] at h
  | cons piece ps ih =>
      cases k with
      | zero =>
          simp only [linesFrom, List.getElem?_cons_zero, Option.some.injEq] at h
          simp [← h, joinLines]
      | succ k =>
          have hpiece := congrArg size (content_append_terminator piece)
          have hrest : (linesFrom (index + 1) (start + piece.size) ps)[k]? = some l := by
            simpa [linesFrom] using h
          rw [ih hrest]
          simp only [linesFrom, List.take_succ_cons, joinLines, List.flatMap_cons, Line.raw,
            size_append]
          rw [size_append] at hpiece
          omega

theorem index_of_getElem?_linesFrom {index start k : Nat} {ps : List Text} {l : Line}
    (h : (linesFrom index start ps)[k]? = some l) : l.index = index + k := by
  induction ps generalizing index start k with
  | nil => simp [linesFrom] at h
  | cons piece ps ih =>
      cases k with
      | zero =>
          simp only [linesFrom, List.getElem?_cons_zero, Option.some.injEq] at h
          simp [← h]
      | succ k =>
          have hrest : (linesFrom (index + 1) (start + piece.size) ps)[k]? = some l := by
            simpa [linesFrom] using h
          rw [ih hrest]
          omega

theorem index_of_getElem? {t : Text} {k : Nat} {l : Line} (h : t.lines[k]? = some l) :
    l.index = k := by
  simpa using index_of_getElem?_linesFrom h

theorem start_eq_lineOffset {t : Text} {k : Nat} {l : Line} (h : t.lines[k]? = some l) :
    l.start = t.lineOffset k := by
  have hstart := start_of_getElem?_linesFrom h
  simpa [lineOffset, lines] using hstart

theorem take_succ_lines {t : Text} {k : Nat} {l : Line} (h : t.lines[k]? = some l) :
    t.lines.take (k + 1) = t.lines.take k ++ [l] := by
  simp [List.take_add_one, h]

theorem lineOffset_succ {t : Text} {k : Nat} {l : Line} (h : t.lines[k]? = some l) :
    t.lineOffset (k + 1) = t.lineOffset k + l.raw.size := by
  simp [lineOffset, take_succ_lines h]

theorem span_stop_eq_lineOffset {t : Text} {k : Nat} {l : Line} (h : t.lines[k]? = some l) :
    l.span.stop = t.lineOffset (k + 1) := by
  simp [lineOffset_succ h, Line.span, start_eq_lineOffset h]

theorem raw_ne_nil {t : Text} {l : Line} (h : l ∈ t.lines) : l.raw ≠ [] := by
  have hraw : l.raw ∈ t.lines.map Line.raw := List.mem_map_of_mem h
  rw [lines, map_raw_linesFrom] at hraw
  exact ne_nil_of_mem_pieces hraw

theorem size_pos_of_ne_nil {t : Text} (h : t ≠ []) : 0 < t.size := by
  obtain ⟨c, r, rfl⟩ := List.exists_cons_of_ne_nil h
  have hc := c.utf8Size_pos
  simp only [size_cons]
  omega

theorem lineOffset_lt_succ {t : Text} {k : Nat} (h : k < t.lines.length) :
    t.lineOffset k < t.lineOffset (k + 1) := by
  have hline : t.lines[k]? = some t.lines[k] := List.getElem?_eq_getElem h
  have hraw := size_pos_of_ne_nil (raw_ne_nil (List.getElem_mem h))
  rw [lineOffset_succ hline]
  omega

theorem lineOffset_le_lineOffset {t : Text} {i j : Nat} (h : i ≤ j) :
    t.lineOffset i ≤ t.lineOffset j := by
  obtain ⟨d, rfl⟩ := Nat.exists_eq_add_of_le h
  simp [lineOffset, List.take_add]

theorem lineOffset_lt_lineOffset {t : Text} {i j : Nat} (h : i < j) (hi : i < t.lines.length) :
    t.lineOffset i < t.lineOffset j :=
  Nat.lt_of_lt_of_le (lineOffset_lt_succ hi) (lineOffset_le_lineOffset h)

/-! ## Written lines -/

/-- A text that can stand as a line before a line feed. -/
def IsLine (t : Text) : Prop :=
  '\n' ∉ t ∧ t.getLast? ≠ some '\r'

theorem map_content_linesFrom (index start : Nat) (ps : List Text) :
    (linesFrom index start ps).map Line.content =
      ps.map fun piece => (splitTerminator piece).1 := by
  induction ps generalizing index start with
  | nil => rfl
  | cons piece ps ih => simp [linesFrom, ih]

/-- What is read of a line that was written with a line feed behind it: a
carriage return at its end is taken for a part of the ending. -/
def readLine (l : Text) : Text :=
  (splitTerminator (l ++ ['\n'])).1

theorem readLine_of_isLine {l : Text} (h : IsLine l) : readLine l = l := by
  rw [readLine, splitTerminator_append_lf h.2]

theorem readLine_concat_cr (l : Text) : readLine (l ++ ['\r']) = l := by
  have hcrlf : dropSuffix? ['\r', '\n'] (l ++ ['\r'] ++ ['\n']) = some l :=
    dropSuffix?_eq_some_iff.mpr (by simp)
  rw [readLine, splitTerminator, hcrlf]

theorem readLine_cases (l : Text) : readLine l = l ∨ l = readLine l ++ ['\r'] := by
  by_cases hcr : l.getLast? = some '\r'
  · right
    obtain ⟨front, rfl⟩ := List.getLast?_eq_some_iff.mp hcr
    rw [readLine_concat_cr]
  · left
    rw [readLine, splitTerminator_append_lf hcr]

theorem map_content_lines_flatMap_of_not_mem {ls : List Text} (h : ∀ l ∈ ls, '\n' ∉ l) :
    (Text.lines (ls.flatMap (· ++ ['\n']))).map Line.content = ls.map readLine := by
  rw [lines, map_content_linesFrom]
  induction ls with
  | nil => rfl
  | cons l ls ih =>
      have hrest := ih fun l hl => h l (by simp [hl])
      have hpieces := pieces_append_lf (h l (by simp)) (ls.flatMap (· ++ ['\n']))
      have htext : (l :: ls).flatMap (· ++ ['\n']) = l ++ '\n' :: ls.flatMap (· ++ ['\n']) := by
        simp
      rw [htext, hpieces, List.map_cons, hrest]
      rfl

/-- Lines that are each ended by a line feed are read back. -/
theorem map_content_lines_flatMap {ls : List Text} (h : ∀ l ∈ ls, IsLine l) :
    (Text.lines (ls.flatMap (· ++ ['\n']))).map Line.content = ls := by
  rw [map_content_lines_flatMap_of_not_mem fun l hl => (h l hl).1,
    List.map_congr_left fun l hl => readLine_of_isLine (h l hl), List.map_id']

/-- No line of a text holds a line feed. -/
theorem not_mem_content_of_mem_lines {t : Text} {l : Line} (h : l ∈ t.lines) :
    '\n' ∉ l.content := by
  have hcontent : l.content ∈ t.lines.map Line.content := List.mem_map_of_mem h
  rw [lines, map_content_linesFrom] at hcontent
  obtain ⟨piece, hpiece, heq⟩ := List.mem_map.mp hcontent
  rw [← heq]
  exact not_mem_content_of_mem_pieces hpiece

/-! ## Boundaries -/

theorem isBoundary_size_append (s t : Text) : isBoundary (s ++ t) s.size = true := by
  simp [isBoundary, before_size_append]

theorem isBoundary_lineOffset (t : Text) (k : Nat) : t.isBoundary (t.lineOffset k) = true := by
  have hcut := isBoundary_size_append (joinLines (t.lines.take k)) (joinLines (t.lines.drop k))
  rwa [joinLines_take_append_drop] at hcut

/-- Above the start of a line stand the lines above it. -/
theorem before_lineOffset (t : Text) (k : Nat) :
    before (t.lineOffset k) t = joinLines (t.lines.take k) := by
  have hcut := before_size_append (joinLines (t.lines.take k)) (joinLines (t.lines.drop k))
  rwa [joinLines_take_append_drop] at hcut

/-- From the start of a line on stand that line and those below it. -/
theorem after_lineOffset (t : Text) (k : Nat) :
    after (t.lineOffset k) t = joinLines (t.lines.drop k) := by
  have hcut := after_size_append (joinLines (t.lines.take k)) (joinLines (t.lines.drop k))
  rwa [joinLines_take_append_drop] at hcut

/-- A text is what stands above a line, the line's content and terminator, and
what stands below. -/
theorem joinLines_take_append_line {t : Text} {k : Nat} {l : Line} (h : t.lines[k]? = some l) :
    joinLines (t.lines.take k) ++
      (l.content ++ (l.terminator.toText ++ joinLines (t.lines.drop (k + 1)))) = t := by
  have hline := joinLines_take_append_drop t (k + 1)
  rw [take_succ_lines h, joinLines_append, joinLines_singleton, Line.raw] at hline
  simpa using hline

theorem isBoundary_contentSpan_stop {t : Text} {k : Nat} {l : Line}
    (h : t.lines[k]? = some l) : t.isBoundary l.contentSpan.stop = true := by
  have hcut := isBoundary_size_append (joinLines (t.lines.take k) ++ l.content)
    (l.terminator.toText ++ joinLines (t.lines.drop (k + 1)))
  rw [List.append_assoc, joinLines_take_append_line h] at hcut
  simpa [Line.contentSpan, start_eq_lineOffset h, lineOffset] using hcut

theorem slice_contentSpan {t : Text} {k : Nat} {l : Line} (h : t.lines[k]? = some l) :
    slice t l.contentSpan.start l.contentSpan.stop = l.content := by
  have hstart : l.start = (joinLines (t.lines.take k)).size := start_eq_lineOffset h
  have hafter := after_size_append (joinLines (t.lines.take k))
    (l.content ++ (l.terminator.toText ++ joinLines (t.lines.drop (k + 1))))
  rw [joinLines_take_append_line h, ← hstart] at hafter
  have hsize : l.start + l.content.size - l.start = l.content.size := by omega
  simp only [slice, Line.contentSpan, hafter, hsize]
  exact before_size_append _ _

end Text

end Marginalia
