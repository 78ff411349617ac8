import Marginalia.Proofs.Text.Parts
import Marginalia.Proofs.Yaml.BlockText
import Marginalia.Proofs.Yaml.Items
import Marginalia.Proofs.Yaml.ListRegion
import Marginalia.Proofs.Yaml.PlainComment

/-!
# The text after a list replacement

A list is replaced between the lines above its key and the lines below its last
item.  What is written there is the key line, without its value when items
follow, the blank lines and comments above the first item as they were, and the
new items, one line each, with the padding of the old ones and the ending of the
key line.
-/

namespace Marginalia.Yaml

namespace Patch

/-- Lines with the padding of a list, each ended by `ending`, but for the last
one. -/
def writtenLines (indent : Nat) (ending last : Terminator) : List Text → List (Text × Terminator)
  | [] => []
  | l :: ls =>
    (List.replicate indent ' ' ++ l, if ls.isEmpty then last else ending) ::
      writtenLines indent ending last ls

theorem ofParts_writtenLines_open (indent : Nat) (ending : Terminator) (ls : List Text) :
    Text.ofParts (writtenLines indent ending .none ls) = block indent ending.toText true ls := by
  induction ls with
  | nil => rfl
  | cons l ls ih =>
      cases ls with
      | nil => simp [writtenLines, block, Text.joinWith, Terminator.toText]
      | cons l' ls =>
          rw [writtenLines, Text.ofParts_cons, ih]
          simp [block, Text.joinWith]

theorem ofParts_writtenLines_closed (indent : Nat) (ending : Terminator) (ls : List Text) :
    Text.ofParts (writtenLines indent ending ending ls) = block indent ending.toText false ls := by
  induction ls with
  | nil => rfl
  | cons l ls ih =>
      rw [writtenLines, Text.ofParts_cons, ih, ite_self]
      simp [block]

/-- The lines that the patcher writes below a last line, which says whether they
are left open. -/
theorem block_eq_ofParts (indent : Nat) (ending last : Terminator) (rendered : List Text) :
    block indent ending.toText (last == .none) rendered = Text.ofParts
      (writtenLines indent ending (if last = .none then .none else ending) rendered) := by
  by_cases hopen : last = .none
  · rw [if_pos hopen, ofParts_writtenLines_open, hopen]
    rfl
  · rw [if_neg hopen, ofParts_writtenLines_closed, beq_eq_false_iff_ne.mpr hopen]

theorem laid_writtenLines (indent : Nat) {ending : Terminator} (last : Terminator)
    (hending : ending ≠ .none) {ls : List Text} (hls : ∀ l ∈ ls, l ≠ [] ∧ Text.IsLine l) :
    Text.Laid (writtenLines indent ending last ls) ∧
      (last ≠ .none → Text.Ended (writtenLines indent ending last ls)) := by
  induction ls with
  | nil => exact ⟨.nil, fun _ p hp => nomatch hp⟩
  | cons l ls ih =>
      obtain ⟨hl, hls⟩ := List.forall_mem_cons.mp hls
      obtain ⟨hne, hlf, hcr⟩ := hl
      obtain ⟨hlaid, hended⟩ := ih hls
      have hlf' : '\n' ∉ List.replicate indent ' ' ++ l := by
        simpa [List.mem_append, List.mem_replicate] using hlf
      have hcr' : (List.replicate indent ' ' ++ l).getLast? ≠ some '\r' := by
        rwa [List.getLast?_append_of_ne_nil _ hne]
      have hcons : ∀ {terminator : Terminator}, terminator ≠ .none →
          Text.Laid ((List.replicate indent ' ' ++ l, terminator) ::
            writtenLines indent ending last ls) :=
        fun hterminator => .cons hterminator hlf' (fun _ => hcr') hlaid
      rw [writtenLines]
      cases ls with
      | nil =>
          by_cases hlast : last = .none
          · rw [hlast]
            exact ⟨.last (by simp [hne]) hlf', fun h => absurd rfl h⟩
          · exact ⟨hcons hlast, fun _ => List.forall_mem_cons.mpr ⟨hlast, hended hlast⟩⟩
      | cons l' ls =>
          exact ⟨hcons hending, fun hlast => List.forall_mem_cons.mpr ⟨hending, hended hlast⟩⟩

/-- A text at a list: the lines above the key, the line of the key, the blank
lines and comments above the first item, the items and the lines below them. -/
structure ListAt (t module path : Text) where
  above : List Line
  key : Line
  lead : List Line
  old : List Line
  below : List Line
  /-- Where the module ends. -/
  stop : Nat
  /-- The line of the key, cut at its seams. -/
  parts : KeyLine
  /-- The padding of the items. -/
  indent : Nat
  lines_eq : t.lines = above ++ key :: (lead ++ (old ++ below))
  located : ∃ start, (Outline.ofText t).locate module path = .ok (⟨start, stop⟩, above.length)
  keyed : KeyLine.ofLine? (.ofLine key) = some parts
  within : above.length + 1 + lead.length + old.length ≤ stop
  items : ItemsUnder (OutlineLine.ofLine key).indent (lead.map .ofLine) (old.map .ofLine)
    ((below.take (stop - (above.length + 1 + lead.length + old.length))).map .ofLine) indent

variable {t module path : Text}

theorem exists_listAt {range : LineRange} {i : Nat}
    (h : (Outline.ofText t).locate module path = .ok (range, i)) :
    ∃ s : ListAt t module path, s.above.length = i ∧ s.stop = range.stop := by
  obtain ⟨l, k, hkey⟩ := exists_keyLine_of_locate h
  obtain ⟨hl, hk⟩ := keyLine_eq_ok_iff.mp hkey
  obtain ⟨hline, hof⟩ := Outline.getElem?_ofText hl
  obtain ⟨-, hlow, hstop⟩ := Outline.locate_bounds h
  obtain ⟨lead, rest, below, hregion, hitems⟩ := Outline.exists_itemsUnder_body hl range.stop
  rw [Outline.ofText, ← List.map_take, ← List.map_drop, List.map_eq_append_iff] at hregion
  obtain ⟨leadLines, restLines, hlines, rfl, hrest⟩ := hregion
  obtain ⟨oldLines, belowLines, rfl, rfl, rfl⟩ := List.map_eq_append_iff.mp hrest
  have hlength := congrArg List.length hlines
  rw [Outline.length_ofText] at hstop
  rw [List.length_drop, List.length_take, Nat.min_eq_left hstop, List.length_append,
    List.length_append] at hlength
  have habove : (t.lines.take i).length = i := by
    rw [List.length_take]
    omega
  have hinside : (belowLines ++ t.lines.drop range.stop).take
      (range.stop - ((t.lines.take i).length + 1 + leadLines.length + oldLines.length)) =
        belowLines := by
    rw [List.take_left']
    omega
  have hdrop : t.lines.drop (i + 1) =
      leadLines ++ (oldLines ++ (belowLines ++ t.lines.drop range.stop)) := by
    have hcut : (t.lines.take range.stop ++ t.lines.drop range.stop).drop (i + 1) =
        (t.lines.take range.stop).drop (i + 1) ++ t.lines.drop range.stop :=
      List.drop_append_of_le_length (by rw [List.length_take]; omega)
    rw [List.take_append_drop, hlines] at hcut
    simpa using hcut
  refine ⟨{
    above := t.lines.take i
    key := l.line
    lead := leadLines
    old := oldLines
    below := belowLines ++ t.lines.drop range.stop
    stop := range.stop
    parts := k
    indent := ((Outline.ofText t).body i range.stop .sequence).indent
    lines_eq := ?_
    located := ⟨range.start, ?_⟩
    keyed := ?_
    within := ?_
    items := ?_ }, habove, rfl⟩
  · rw [← hdrop, List.append_cons, ← Text.take_succ_lines hline, List.take_append_drop]
  · rw [habove]
    exact h
  · rwa [← hof]
  · omega
  · rw [hinside, ← hof]
    exact hitems

namespace ListAt

variable (s : ListAt t module path)

def ending : Terminator :=
  s.key.terminator.orLf

/-- The ending of the last new line: none where the text ended there without
one. -/
def lastEnding : Terminator :=
  if (s.old.getLast?.getD s.key).terminator = .none then .none else s.ending

/-- The new line of the key: without items it has the value `[]`, with items it
has none. -/
def keyPart (rendered : List Text) : Text × Terminator :=
  if rendered.isEmpty then (s.parts.withValue ['[', ']'], s.key.terminator)
  else (s.parts.head ++ s.parts.comment, s.ending)

/-- The lines of the text with the lines `rendered` for its items. -/
def rewritten (rendered : List Text) : List (Text × Terminator) :=
  s.above.map Line.parts ++ s.keyPart rendered :: (s.lead.map Line.parts ++
    (writtenLines s.indent s.ending s.lastEnding rendered ++ s.below.map Line.parts))

def body : Body :=
  ⟨⟨s.above.length + 1 + s.lead.length, s.above.length + 1 + s.lead.length + s.old.length⟩,
    s.indent⟩

theorem getElem?_lines : t.lines[s.above.length]? = some s.key := by
  simp [s.lines_eq]

theorem getElem?_outline : (Outline.ofText t)[s.above.length]? = some (.ofLine s.key) := by
  rw [Outline.ofText, List.getElem?_map, s.getElem?_lines]
  rfl

theorem take_start : t.lines.take s.body.lines.start = s.above ++ s.key :: s.lead := by
  have hsplit : t.lines = (s.above ++ s.key :: s.lead) ++ (s.old ++ s.below) := by
    simp [s.lines_eq]
  rw [hsplit, List.take_left']
  simp [body]
  omega

theorem drop_start : t.lines.drop s.body.lines.start = s.old ++ s.below := by
  have hsplit : t.lines = (s.above ++ s.key :: s.lead) ++ (s.old ++ s.below) := by
    simp [s.lines_eq]
  rw [hsplit, List.drop_left']
  simp [body]
  omega

theorem drop_stop : t.lines.drop s.body.lines.stop = s.below := by
  have hsplit : t.lines = (s.above ++ s.key :: (s.lead ++ s.old)) ++ s.below := by
    simp [s.lines_eq]
  rw [hsplit, List.drop_left']
  simp [body]
  omega

theorem getElem?_last {front : List Line} {last : Line} (h : s.old = front.concat last) :
    t.lines[s.body.lines.stop - 1]? = some last := by
  have hsplit : t.lines = (s.above ++ s.key :: (s.lead ++ front)) ++ last :: s.below := by
    simp [s.lines_eq, h]
  have hindex : s.body.lines.stop - 1 = (s.above ++ s.key :: (s.lead ++ front)).length := by
    simp only [body, h, List.concat_eq_append, List.length_append, List.length_cons,
      List.length_nil]
    omega
  rw [hsplit, hindex, List.getElem?_append_right (Nat.le_refl _), Nat.sub_self]
  rfl

theorem stop_sub_add_one : s.body.lines.stop - 1 + 1 = s.body.lines.stop := by
  simp only [body]
  omega

theorem drop_succ : t.lines.drop (s.above.length + 1) = s.lead ++ (s.old ++ s.below) := by
  rw [s.lines_eq, List.append_cons, List.drop_left']
  simp

theorem body_eq : (Outline.ofText t).body s.above.length s.stop .sequence = s.body := by
  have hwithin := s.within
  have hcount : s.stop - (s.above.length + 1) - s.lead.length - s.old.length =
      s.stop - (s.above.length + 1 + s.lead.length + s.old.length) := by
    omega
  have hregion : ((Outline.ofText t).take s.stop).drop (s.above.length + 1) =
      s.lead.map .ofLine ++ (s.old.map .ofLine ++ ((s.below.take (s.stop -
        (s.above.length + 1 + s.lead.length + s.old.length))).map .ofLine)) := by
    rw [Outline.ofText, ← List.map_take, ← List.map_drop, List.drop_take, s.drop_succ,
      List.take_append, List.take_append, List.take_of_length_le (by omega),
      List.take_of_length_le (by omega), List.map_append, List.map_append, hcount]
  have hbody := Outline.body_of_itemsUnder s.getElem?_outline hregion s.items
  rwa [List.length_map, List.length_map] at hbody

theorem ending_ne_none : s.ending ≠ .none := by
  unfold ending
  cases s.key.terminator with
  | none => simp [Terminator.orLf]
  | lf => simp [Terminator.orLf]
  | crlf => simp [Terminator.orLf]

theorem ending_eq (h : s.key.terminator ≠ .none) : s.ending = s.key.terminator := by
  unfold ending
  cases hterminator : s.key.terminator with
  | none => exact absurd hterminator h
  | lf => rfl
  | crlf => rfl

theorem below_of_open (h : s.key.terminator = .none) : s.lead = [] ∧ s.old = [] ∧ s.below = [] := by
  have hnone := Text.drop_lines_of_terminator_eq_none s.getElem?_lines h
  rw [s.drop_succ, List.append_eq_nil_iff, List.append_eq_nil_iff] at hnone
  exact hnone

/-- Without items there are no lines above the first one. -/
theorem lead_eq_nil (h : s.old = []) : s.lead = [] := by
  have hitems := s.items
  rw [h] at hitems
  exact List.map_eq_nil_iff.mp hitems.lead_eq_nil

/-! ## What is written -/

theorem block_eq (rendered : List Text) :
    block s.indent s.ending.toText ((s.old.getLast?.getD s.key).terminator == .none) rendered =
      Text.ofParts (writtenLines s.indent s.ending s.lastEnding rendered) :=
  block_eq_ofParts s.indent s.ending _ rendered

/-- The line ending that a key line gets where it has none and lines follow. -/
def extraEnding (rendered : List Text) : Text :=
  if s.key.terminator = .none ∧ rendered ≠ [] then s.ending.toText else []

theorem foldr_bodyEdits (rendered : List Text) :
    (bodyEdits (Outline.ofText t) (.ofLine s.key) s.body rendered).foldr Edit.apply t =
      Text.joinLines (t.lines.take s.body.lines.start) ++ (s.extraEnding rendered ++
        (Text.ofParts (writtenLines s.indent s.ending s.lastEnding rendered) ++
          Text.joinLines s.below)) := by
  have hkeyStop := Text.span_stop_eq_lineOffset s.getElem?_lines
  rw [← s.block_eq, ← s.drop_stop]
  by_cases hold : s.old = []
  · -- the items follow the line of the key, which gets an ending if it has none
    have hlines : s.body.lines = ⟨s.above.length + 1, s.above.length + 1⟩ := by
      simp [body, hold, s.lead_eq_nil hold]
    by_cases hrendered : rendered = []
    · simp [bodyEdits, hlines, hrendered, block_nil, extraEnding, Text.joinLines_take_append_drop]
    · have hedits : bodyEdits (Outline.ofText t) (.ofLine s.key) s.body rendered =
          [⟨⟨t.lineOffset (s.above.length + 1), t.lineOffset (s.above.length + 1)⟩,
            s.extraEnding rendered ++
              block s.indent s.ending.toText (s.key.terminator == .none) rendered⟩] := by
        have hindent : s.body.indent = s.indent := rfl
        by_cases hnone : s.key.terminator = .none
        · simp [bodyEdits, hlines, hrendered, hnone, extraEnding, ending, OutlineLine.ofLine,
            hkeyStop, hindent]
        · simp [bodyEdits, hlines, hrendered, hnone, extraEnding, ending, OutlineLine.ofLine,
            hkeyStop, hindent, beq_eq_false_iff_ne.mpr hnone]
      have happly := apply_lines t (s.above.length + 1) (s.above.length + 1)
      rw [hedits, List.foldr_cons, List.foldr_nil, happly, hlines, hold]
      simp
  · -- the items take the place of the old ones, whose last line says how they end
    obtain ⟨front, last, hlast⟩ := (List.eq_nil_or_concat s.old).resolve_left hold
    have hended : s.key.terminator ≠ .none := fun h => hold (s.below_of_open h).2.1
    have hlt : s.body.lines.start < s.body.lines.stop := by
      simpa [body] using List.length_pos_iff.mpr hold
    have hedits : bodyEdits (Outline.ofText t) (.ofLine s.key) s.body rendered =
        [⟨⟨t.lineOffset s.body.lines.start, t.lineOffset s.body.lines.stop⟩,
          block s.indent s.ending.toText (last.terminator == .none) rendered⟩] :=
      bodyEdits_of_lt hlt (s.getElem?_last hlast) rendered
    rw [hedits, List.foldr_cons, List.foldr_nil, apply_lines, hlast]
    simp [extraEnding, hended]

theorem applyAll_blockEdits_eq (rendered : List Text) :
    Edit.applyAll (blockEdits (Outline.ofText t) (.ofLine s.key) s.parts s.body rendered
      ['[', ']']) t = Text.ofParts (s.rewritten rendered) := by
  obtain ⟨start, hlocate⟩ := s.located
  have hlow := (Outline.locate_bounds hlocate).2.1
  have habove : aboveBody t s.above.length s.key s.body =
      s.key.terminator.toText ++ Text.joinLines s.lead := by
    have hdrop : (s.above ++ s.key :: s.lead).drop (s.above.length + 1) = s.lead := by
      rw [List.append_cons, List.drop_left']
      simp
    rw [aboveBody, s.take_start, hdrop]
  have hfront : t.lines.take s.above.length = s.above := by
    rw [s.lines_eq, List.take_left]
  have hline : (OutlineLine.ofLine s.key).line = s.key := rfl
  have hcontent : (if rendered.isEmpty then s.parts.withValue ['[', ']']
      else s.parts.head ++ s.parts.comment) = (s.keyPart rendered).1 := by
    rw [keyPart, apply_ite Prod.fst]
  have hended : s.key.terminator.toText ++ (Text.joinLines s.lead ++ s.extraEnding rendered) =
      (s.keyPart rendered).2.toText ++ Text.joinLines s.lead := by
    by_cases hnone : s.key.terminator = .none
    · cases rendered with
      | nil => simp [extraEnding, keyPart]
      | cons l ls =>
          simp [extraEnding, keyPart, hnone, (s.below_of_open hnone).1, Terminator.toText,
            Text.joinLines]
    · rw [extraEnding, if_neg fun h => hnone h.1, keyPart, s.ending_eq hnone, apply_ite Prod.snd,
        ite_self, List.append_nil]
  rw [applyAll_blockEdits s.getElem?_outline hlow s.body_eq s.parts ['[', ']']
    (s.foldr_bodyEdits rendered), hline, habove, hfront, hcontent, rewritten]
  simp only [Text.ofParts_append, Text.ofParts_cons, Text.ofParts_map_parts, ← List.append_assoc]
  congr 2
  simpa only [List.append_assoc, List.append_cancel_left_eq] using hended

/-! ## The lines of the new text -/

theorem below_of_lastEnding (h : s.lastEnding = .none) : s.below = [] := by
  have hopen : (s.old.getLast?.getD s.key).terminator = .none := by
    unfold lastEnding at h
    split at h
    · assumption
    · exact absurd h s.ending_ne_none
  by_cases hold : s.old = []
  · rw [hold] at hopen
    exact (s.below_of_open hopen).2.2
  · obtain ⟨front, last, hlast⟩ := (List.eq_nil_or_concat s.old).resolve_left hold
    rw [hlast, List.concat_eq_append, List.getLast?_concat] at hopen
    rw [← s.drop_stop]
    have hdrop := Text.drop_lines_of_terminator_eq_none (s.getElem?_last hlast) hopen
    rwa [s.stop_sub_add_one] at hdrop

theorem exists_cut : ∃ name front rest,
    (OutlineLine.ofLine s.key).kind = .key name (Text.size front) ∧
    s.key.content = front ++ ':' :: rest ∧ s.parts.head = front ++ [':'] ∧
    s.parts.comment = (Scalar.splitComment rest).2 := by
  obtain ⟨name, colon, hkind⟩ := KeyLine.exists_kind_eq_key s.keyed
  obtain ⟨front, rest, hcontent, -, rfl, -⟩ := OutlineLine.exists_of_kind_eq_key hkind
  have hcut := KeyLine.ofLine?_eq_cut hcontent hkind
  rw [s.keyed, Option.some.injEq] at hcut
  exact ⟨name, front, rest, hkind, hcontent, by rw [hcut]; rfl, by rw [hcut]; rfl⟩

/-- The new line of the key is told from what follows, also where the key line
was open, unless it ended with a carriage return then. -/
theorem laid_keyPart (rendered : List Text)
    (hopen : s.key.terminator = .none → s.key.content.getLast? ≠ some '\r') :
    Text.Laid [s.keyPart rendered] := by
  obtain ⟨name, front, rest, hkind, hcontent, hhead, hcomment⟩ := s.exists_cut
  have hmem := List.mem_of_getElem? s.getElem?_lines
  have hlaid : ∀ {content : Text} {terminator : Terminator}, content ≠ [] → '\n' ∉ content →
      (terminator = .lf → content.getLast? ≠ some '\r') → Text.Laid [(content, terminator)] := by
    intro content terminator hne hlf hcr
    by_cases hnone : terminator = .none
    · rw [hnone]
      exact .last hne hlf
    · exact .cons hnone hlf hcr .nil
  have hsuffix : s.parts.comment <:+ rest := by
    rw [hcomment]
    exact Scalar.suffix_snd_splitComment rest
  cases rendered with
  | nil =>
      have hadmits := KeyLine.admits_withValue_of_noControl (l := .ofLine s.key) hmem hcontent hkind
        s.keyed ['[', ']'] (by simp) (by simp; decide)
      exact hlaid hadmits.ne_nil hadmits.not_mem_lf hadmits.getLast?_ne
  | cons l ls =>
      have hadmits := KeyLine.admits_append_comment hmem hcontent hsuffix [] (by simp) (by simp)
      have hsame : front ++ ':' :: ([] ++ s.parts.comment) = s.parts.head ++ s.parts.comment := by
        simp [hhead]
      rw [hsame] at hadmits
      refine hlaid hadmits.ne_nil hadmits.not_mem_lf fun hlf => ?_
      rw [← hsame]
      refine KeyLine.getLast?_append_comment hsuffix ?_ (by simp)
      rw [← hcontent]
      by_cases hnone : s.key.terminator = .none
      · exact hopen hnone
      · refine Text.getLast?_content_of_lf hmem ?_
        rwa [← s.ending_eq hnone]

/-- The new lines are the lines of the new text. -/
theorem laid_rewritten {rendered : List Text} (hrendered : ∀ l ∈ rendered, l ≠ [] ∧ Text.IsLine l)
    (hopen : s.key.terminator = .none → s.key.content.getLast? ≠ some '\r') :
    Text.Laid (s.rewritten rendered) := by
  have hold := Text.laid_lines t
  have hsplit : t.lines.map Line.parts = s.above.map Line.parts ++ ([s.key.parts] ++
      (s.lead.map Line.parts ++ (s.old.map Line.parts ++ s.below.map Line.parts))) := by
    simp [s.lines_eq]
  rw [hsplit] at hold
  simp only [Text.laid_append_iff] at hold
  obtain ⟨habove, ⟨-, ⟨hlead, ⟨-, hbelow, -⟩, hleadEnded⟩, -⟩, haboveEnded⟩ := hold
  obtain ⟨hwritten, hwrittenEnded⟩ :=
    laid_writtenLines s.indent s.lastEnding s.ending_ne_none hrendered
  have hleadEnded' : Text.Ended (s.lead.map Line.parts) := by
    by_cases hold : s.old = []
    · rw [s.lead_eq_nil hold]
      exact fun p hp => nomatch hp
    · exact hleadEnded.resolve_left (by simp [hold])
  have hbelow' : s.below.map Line.parts = [] ∨
      Text.Ended (writtenLines s.indent s.ending s.lastEnding rendered) := by
    by_cases hlast : s.lastEnding = .none
    · exact Or.inl (by rw [s.below_of_lastEnding hlast, List.map_nil])
    · exact Or.inr (hwrittenEnded hlast)
  have hkey : s.lead.map Line.parts ++ (writtenLines s.indent s.ending s.lastEnding rendered ++
      s.below.map Line.parts) = [] ∨ Text.Ended [s.keyPart rendered] := by
    cases rendered with
    | nil =>
        by_cases hnone : s.key.terminator = .none
        · obtain ⟨hlead, -, hbelow⟩ := s.below_of_open hnone
          exact Or.inl (by rw [hlead, hbelow]; rfl)
        · exact Or.inr (List.forall_mem_singleton.mpr hnone)
    | cons l ls => exact Or.inr (List.forall_mem_singleton.mpr s.ending_ne_none)
  rw [rewritten, ← List.singleton_append]
  refine Text.laid_append_iff.mpr ⟨habove, ?_, Or.inr (haboveEnded.resolve_left (by simp))⟩
  refine Text.laid_append_iff.mpr ⟨s.laid_keyPart rendered hopen, ?_, hkey⟩
  refine Text.laid_append_iff.mpr ⟨hlead, ?_, Or.inr hleadEnded'⟩
  exact Text.laid_append_iff.mpr ⟨hwritten, hbelow, hbelow'⟩

theorem fieldAt : FieldAt t module path s.above.length s.key s.parts := by
  obtain ⟨start, hlocate⟩ := s.located
  exact ⟨⟨⟨start, s.stop⟩, hlocate⟩, s.getElem?_lines, s.keyed⟩

/-- The comment that is kept is the note behind the old value exactly when the
quotes in that value are closed. -/
theorem comment_eq_iff {rest value note : Text} (hl : s.key.content = s.parts.head ++ rest)
    (hnote : Scalar.FirstNote rest value note) :
    s.parts.comment = note ↔ Scalar.QuotesClosed value := by
  obtain ⟨hcloses, hcomment⟩ := s.fieldAt.comment_eq hl
  rw [hcomment]
  constructor
  · intro hsame
    by_contra hopen
    have hshort := hnote.length_snd_splitComment_lt hcloses hopen
    rw [hsame] at hshort
    exact Nat.lt_irrefl _ hshort
  · exact hnote.snd_splitComment_eq hcloses

theorem keyLine_eq : keyLine (Outline.ofText t) s.above.length module path =
    .ok (.ofLine s.key, s.parts) :=
  keyLine_eq_ok_iff.mpr ⟨s.getElem?_outline, s.keyed⟩

/-- A list that is replaced leaves room for a block on the line of its key, and
the edits make the new text. -/
theorem applyAll?_of_replaceList {items : List ListItem} {es : List Edit}
    (h : replaceList t module path items = .ok es) :
    admitsBlock '[' s.parts = true ∧
      Edit.applyAll? es t = some (Text.ofParts (s.rewritten (items.flatMap ListItem.render))) := by
  obtain ⟨start, hlocate⟩ := s.located
  obtain ⟨range, i, l, k, hlocate', hkey, hadmits, rfl⟩ := exists_of_replaceList_eq_ok h
  obtain ⟨rfl, rfl⟩ := Prod.mk.inj (Except.ok.inj (hlocate.symm.trans hlocate'))
  obtain ⟨rfl, rfl⟩ := Prod.mk.inj (Except.ok.inj (s.keyLine_eq.symm.trans hkey))
  have hfits := fitsSorted_blockEdits .sequence s.getElem?_outline
    (Outline.locate_bounds hlocate).2.1 s.parts (items.flatMap ListItem.render) ['[', ']']
  rw [s.body_eq] at hfits ⊢
  exact ⟨hadmits, by rw [Edit.applyAll?, if_pos hfits, s.applyAll_blockEdits_eq]⟩

end ListAt

/-! ## Lines of items -/

/-- The lines of an item end with a printable character. -/
theorem isLine_render {item : ListItem} {l : Text} (hl : l ∈ item.render) (hlf : '\n' ∉ l) :
    l ≠ [] ∧ Text.IsLine l := by
  have hscalar : ∀ (front : Text) (quote : Quote) (x : Scalar), l = front ++ x.render quote →
      l ≠ [] ∧ Text.IsLine l := by
    rintro front quote x rfl
    have hne := Scalar.render_ne_nil quote x
    refine ⟨by simp [hne], hlf, ?_⟩
    rw [List.getLast?_append_of_ne_nil _ hne]
    intro hcr
    exact absurd (Scalar.noControl_render quote x _ (List.mem_of_getLast? hcr)) (by decide)
  have hfield : ∀ lead key x, l = ListItem.field lead key x → l ≠ [] ∧ Text.IsLine l := by
    intro lead key x h
    rw [ListItem.field_eq] at h
    exact hscalar (lead ++ (key ++ [':', ' '])) .double x (by simpa using h)
  cases item with
  | scalar x => exact hscalar ['-', ' '] .plain x (List.mem_singleton.mp hl)
  | record fields =>
      cases fields with
      | nil =>
          obtain rfl : l = ['-', ' ', '\x7b', '\x7d'] := List.mem_singleton.mp hl
          exact ⟨by simp, by simp, by simp⟩
      | cons f fields =>
          rcases List.mem_cons.mp hl with hl | hl
          · exact hfield _ _ _ hl
          · obtain ⟨g, -, rfl⟩ := List.mem_map.mp hl
            exact hfield _ _ _ rfl

/-- A list replacement keeps everything around the items: the new text consists
of the lines above the key line, the key line with its own colon, comment and
ending, the lines above the first old item, the new items and the lines below
the last old item.  The comment is the note of the key line where the quotes in
the old value are closed, and only there. -/
theorem replaceList_keeps_around {items : List ListItem} {es : List Edit}
    (h : replaceList t module path items = .ok es) :
    ∃ s : ListAt t module path,
      Edit.applyAll? es t = some (Text.ofParts (s.rewritten (items.flatMap ListItem.render))) ∧
      ((∀ l ∈ items.flatMap ListItem.render, '\n' ∉ l) →
        (s.key.terminator = .none → s.key.content.getLast? ≠ some '\r') →
          (Text.ofParts (s.rewritten (items.flatMap ListItem.render))).lines.map Line.parts =
            s.rewritten (items.flatMap ListItem.render)) ∧
      (∃ name front rest, (OutlineLine.ofLine s.key).kind = .key name (Text.size front) ∧
        s.key.content = front ++ ':' :: rest ∧ s.parts.head = front ++ [':'] ∧
        s.parts.comment <:+ rest) ∧
      ∀ {rest value note : Text}, s.key.content = s.parts.head ++ rest →
        Scalar.FirstNote rest value note →
          (s.parts.comment = note ↔ Scalar.QuotesClosed value) := by
  obtain ⟨range, i, -, -, hlocate, -⟩ := exists_of_replaceList_eq_ok h
  obtain ⟨s, -, -⟩ := exists_listAt hlocate
  obtain ⟨name, front, rest, hkind, hcontent, hhead, hcomment⟩ := s.exists_cut
  refine ⟨s, (s.applyAll?_of_replaceList h).2, fun hlf hopen => ?_,
    ⟨name, front, rest, hkind, hcontent, hhead, ?_⟩, s.comment_eq_iff⟩
  · refine (s.laid_rewritten (fun l hl => ?_) hopen).map_parts_lines
    obtain ⟨item, -, hline⟩ := List.mem_flatMap.mp hl
    exact isLine_render hline (hlf l hl)
  · rw [hcomment]
    exact Scalar.suffix_snd_splitComment rest

/-- Two items of a document without a line ending at its end become one record,
below a blank line and a key with a note. -/
theorem replaceList_keeps_around_open :
    let t := "m:\r\n  k:  # n\r\n\r\n    - a\r\n    - b".toList
    ∃ es, replaceList t ['m'] ['k'] [.record [(['x'], .str ['y']), (['z'], .null)]] = .ok es ∧
      ∃ s : ListAt t ['m'] ['k'], Edit.applyAll? es t =
        some (Text.ofParts (s.rewritten ["- x: \"y\"".toList, "  z: null".toList])) ∧
      Edit.applyAll? es t =
        some "m:\r\n  k:  # n\r\n\r\n    - x: \"y\"\r\n      z: null".toList := by
  intro t
  have hedits : replaceList t ['m'] ['k'] [.record [(['x'], .str ['y']), (['z'], .null)]] =
      .ok [⟨⟨17, 33⟩, "    - x: \"y\"\r\n      z: null".toList⟩] := by
    decide
  obtain ⟨s, happly, -⟩ := replaceList_keeps_around hedits
  exact ⟨_, hedits, s, happly, by decide⟩

/-- The note behind a flow list with an apostrophe goes with the list. -/
theorem note_lost_behind_flow_list :
    ∃ es, replaceList "m:\n  k: [it's]  # note\n".toList ['m'] ['k'] [.scalar (.int 1)] = .ok es ∧
      Edit.applyAll? es "m:\n  k: [it's]  # note\n".toList =
        some "m:\n  k:\n    - 1\n".toList :=
  ⟨[⟨⟨3, 22⟩, "  k:".toList⟩, ⟨⟨23, 23⟩, "    - 1\n".toList⟩], by decide, by decide⟩

end Patch

end Marginalia.Yaml
