import Marginalia.Proofs.Text.Edits
import Marginalia.Proofs.Text.OneLine
import Marginalia.Proofs.Yaml.Consumed
import Marginalia.Proofs.Yaml.Outline

/-!
# The edits of a patch

A patch that succeeds has located a line with a key, and its edits are made from
that line and from the body under it.  `blockEdits` rewrites the key line and
then puts lines in the place of the body: read as byte offsets, its edits are a
chain from the start of the key line to the end of the body.
-/

namespace Marginalia.Yaml.Patch

open Edit (Chain OnBoundaries)

/-! ## What a patch located -/

theorem exists_of_setScalar_eq_ok {t module path : Text} {value : Scalar} {e : Edit}
    (h : setScalar t module path value = .ok e) :
    ∃ range index l k,
      (Outline.ofText t).locate module path = .ok (range, index) ∧
      keyLine (Outline.ofText t) index module path = .ok (l, k) ∧
      e = ⟨l.line.contentSpan, k.withValue (value.render (Quote.ofText k.value))⟩ := by
  unfold setScalar at h
  obtain ⟨⟨range, index⟩, hlocate, h⟩ := bind_eq_ok_iff.mp h
  obtain ⟨⟨l, k⟩, hkey, h⟩ := bind_eq_ok_iff.mp h
  exact ⟨range, index, l, k, hlocate, hkey, (Except.ok.inj h).symm⟩

theorem exists_of_replaceList_eq_ok {t module path : Text} {items : List ListItem}
    {es : List Edit} (h : replaceList t module path items = .ok es) :
    ∃ range index l k,
      (Outline.ofText t).locate module path = .ok (range, index) ∧
      keyLine (Outline.ofText t) index module path = .ok (l, k) ∧
      admitsBlock '[' k = true ∧
      es = blockEdits (Outline.ofText t) l k
        ((Outline.ofText t).body index range.stop .sequence)
        (items.flatMap ListItem.render) ['[', ']'] := by
  unfold replaceList at h
  obtain ⟨⟨range, index⟩, hlocate, h⟩ := bind_eq_ok_iff.mp h
  obtain ⟨⟨l, k⟩, hkey, h⟩ := bind_eq_ok_iff.mp h
  dsimp only at h
  cases hadmits : admitsBlock '[' k with
  | false => simp [hadmits, throw, throwThe, MonadExceptOf.throw, bind, Except.bind] at h
  | true =>
      simp only [hadmits, Bool.not_true, Bool.false_eq_true, if_false] at h
      exact ⟨range, index, l, k, hlocate, hkey, hadmits, (Except.ok.inj h).symm⟩

def orderLines (o : Outline) (body : Body) (entries : List (Text × Bool)) : List Text :=
  entries.map fun (name, _) =>
    '-' :: ' ' :: (Scalar.str name).render .plain ++ noteOf (orderNotes o body) name

def flagLines (o : Outline) (body : Body) (entries : List (Text × Bool)) : List Text :=
  entries.map fun (name, enabled) =>
    (Scalar.str name).render .plain ++ [':', ' '] ++ (Scalar.bool enabled).render .plain ++
      noteOf (flagNotes o body) name

theorem exists_of_reorder_eq_ok {t module orderPath mapPath : Text}
    {entries : List (Text × Bool)} {es : List Edit}
    (h : reorder t module orderPath mapPath entries = .ok es) :
    ∃ range orderIndex range' mapIndex orderLine orderKey mapLine mapKey,
      (Outline.ofText t).locate module orderPath = .ok (range, orderIndex) ∧
      (Outline.ofText t).locate module mapPath = .ok (range', mapIndex) ∧
      keyLine (Outline.ofText t) orderIndex module orderPath = .ok (orderLine, orderKey) ∧
      keyLine (Outline.ofText t) mapIndex module mapPath = .ok (mapLine, mapKey) ∧
      es =
        blockEdits (Outline.ofText t) orderLine orderKey
          ((Outline.ofText t).body orderIndex range.stop .sequence)
          (orderLines (Outline.ofText t)
            ((Outline.ofText t).body orderIndex range.stop .sequence) entries) ['[', ']'] ++
        blockEdits (Outline.ofText t) mapLine mapKey
          ((Outline.ofText t).body mapIndex range.stop .mapping)
          (flagLines (Outline.ofText t)
            ((Outline.ofText t).body mapIndex range.stop .mapping) entries) ['\x7b', '\x7d'] := by
  unfold reorder at h
  obtain ⟨⟨range, orderIndex⟩, horder, h⟩ := bind_eq_ok_iff.mp h
  obtain ⟨⟨range', mapIndex⟩, hmap, h⟩ := bind_eq_ok_iff.mp h
  obtain ⟨⟨orderLine, orderKey⟩, horderKey, h⟩ := bind_eq_ok_iff.mp h
  obtain ⟨⟨mapLine, mapKey⟩, hmapKey, h⟩ := bind_eq_ok_iff.mp h
  refine ⟨range, orderIndex, range', mapIndex, orderLine, orderKey, mapLine, mapKey,
    horder, hmap, horderKey, hmapKey, ?_⟩
  dsimp only at h
  cases horderAdmits : admitsBlock '[' orderKey with
  | false => simp [horderAdmits, throw, throwThe, MonadExceptOf.throw, bind, Except.bind] at h
  | true =>
      cases hmapAdmits : admitsBlock '\x7b' mapKey with
      | false =>
          simp [horderAdmits, hmapAdmits, throw, throwThe, MonadExceptOf.throw, bind,
            Except.bind] at h
      | true =>
          simp only [horderAdmits, hmapAdmits, Bool.not_true, Bool.false_eq_true, if_false] at h
          exact (Except.ok.inj h).symm

/-! ## Where the edits of a block stand -/

variable {t : Text} {index stop : Nat} {l : OutlineLine} {rendered : List Text}

theorem headEdits_cases (l : OutlineLine) (k : KeyLine) (rendered : List Text) (empty : Text) :
    headEdits l k rendered empty = [] ∨
      ∃ head, headEdits l k rendered empty = [⟨l.line.contentSpan, head⟩] := by
  unfold headEdits
  dsimp only
  generalize (if rendered.isEmpty then k.withValue empty else k.head ++ k.comment) = head
  by_cases hsame : head = l.line.content
  · exact Or.inl (if_pos hsame)
  · exact Or.inr ⟨head, if_neg hsame⟩

theorem orLf_toText (e : Terminator) : e.orLf.toText = ['\n'] ∨ e.orLf.toText = ['\r', '\n'] := by
  cases e with
  | none => exact Or.inl rfl
  | lf => exact Or.inl rfl
  | crlf => exact Or.inr rfl

/-- Lines that are each ended by something make up a text. -/
theorem block_ne_nil {indent : Nat} {ending : Text} (hending : ending ≠ [])
    (hrendered : rendered ≠ []) : block indent ending false rendered ≠ [] := by
  obtain ⟨first, rest, rfl⟩ := List.exists_cons_of_ne_nil hrendered
  simp [block, hending]

theorem block_nil (indent : Nat) (ending : Text) (open_ : Bool) :
    block indent ending open_ [] = [] := by
  cases open_ <;> rfl

theorem bodyEdits_of_lt {body : Body} {last : Line} (hlt : body.lines.start < body.lines.stop)
    (hlast : t.lines[body.lines.stop - 1]? = some last) (rendered : List Text) :
    bodyEdits (Outline.ofText t) l body rendered =
      [⟨⟨t.lineOffset body.lines.start, t.lineOffset body.lines.stop⟩,
        block body.indent l.line.terminator.orLf.toText (last.terminator == .none) rendered⟩] := by
  have hlength := (List.getElem?_eq_some_iff.mp hlast).1
  have hbelow : body.lines.start < t.lines.length := by omega
  obtain ⟨first, hfirst⟩ : ∃ first, t.lines[body.lines.start]? = some first :=
    ⟨_, List.getElem?_eq_getElem hbelow⟩
  have hsucc : body.lines.stop - 1 + 1 = body.lines.stop := by omega
  have hstart := Text.start_eq_lineOffset hfirst
  have hstop := Text.span_stop_eq_lineOffset hlast
  rw [hsucc] at hstop
  simp [bodyEdits, Nat.ne_of_lt hlt, Outline.ofText, hfirst, hlast, OutlineLine.ofLine, hstart,
    hstop]

/-- What is put in the place of a body: nothing for no lines, and a block of
lines otherwise, which is left open when nothing follows, and begins with a line
ending when the key line has none. -/
inductive IsBodyText (t : Text) (key : OutlineLine) (body : Body) (rendered : List Text) :
    Text → Prop
  | none (h : rendered = []) : IsBodyText t key body rendered []
  | below (h : rendered ≠ []) (hkey : key.line.terminator = .none)
      (hlast : t.lines.drop body.lines.stop = []) :
      IsBodyText t key body rendered
        (['\n'] ++ block body.indent ['\n'] true rendered)
  | block (h : rendered ≠ []) (hkey : key.line.terminator ≠ .none) (open_ : Bool)
      (hlast : open_ = true → t.lines.drop body.lines.stop = []) :
      IsBodyText t key body rendered
        (Patch.block body.indent key.line.terminator.orLf.toText open_ rendered)

/-- Nothing is put in the place of an empty body when there are no lines;
otherwise the lines stand directly behind the key line or in the place of the
body. -/
theorem bodyEdits_cases (hline : (Outline.ofText t)[index]? = some l) {kind : BodyKind}
    {body : Body} (hbody : (Outline.ofText t).body index stop kind = body)
    (rendered : List Text) :
    ∃ text, IsBodyText t l body rendered text ∧
      (body.lines = ⟨index + 1, index + 1⟩ ∧ rendered = [] ∧
          bodyEdits (Outline.ofText t) l body rendered = [] ∨
        body.lines = ⟨index + 1, index + 1⟩ ∧ rendered ≠ [] ∧ text ≠ [] ∧
          bodyEdits (Outline.ofText t) l body rendered =
            [⟨⟨t.lineOffset (index + 1), t.lineOffset (index + 1)⟩, text⟩] ∨
        body.lines.start < body.lines.stop ∧
          bodyEdits (Outline.ofText t) l body rendered =
            [⟨⟨t.lineOffset body.lines.start, t.lineOffset body.lines.stop⟩, text⟩]) := by
  have hcases := Outline.body_cases (Outline.ofText t) index stop kind
  rw [hbody] at hcases
  have hkeyLine := (Outline.getElem?_ofText hline).1
  have hkeyStop := Text.span_stop_eq_lineOffset hkeyLine
  rcases hcases with hempty | ⟨hstart, hlt, -, hstop, -⟩
  · by_cases hrendered : rendered = []
    · exact ⟨[], .none hrendered, Or.inl ⟨hempty, hrendered, by
        simp [bodyEdits, hempty, hrendered]⟩⟩
    · by_cases hterminator : l.line.terminator = .none
      · have hdrop : t.lines.drop body.lines.stop = [] := by
          rw [hempty]
          exact Text.drop_lines_of_terminator_eq_none hkeyLine hterminator
        have hending : Terminator.none.orLf.toText = ['\n'] := rfl
        refine ⟨_, .below hrendered hterminator hdrop,
          Or.inr (Or.inl ⟨hempty, hrendered, by simp, ?_⟩)⟩
        simp [bodyEdits, hempty, hrendered, hterminator, hkeyStop, hending]
      · have hending : l.line.terminator.orLf.toText ≠ [] := by
          rcases orLf_toText l.line.terminator with hlf | hcrlf
          · simp [hlf]
          · simp [hcrlf]
        refine ⟨_, .block hrendered hterminator false (by simp),
          Or.inr (Or.inl ⟨hempty, hrendered, block_ne_nil hending hrendered, ?_⟩)⟩
        simp [bodyEdits, hempty, hrendered, hterminator, hkeyStop]
  · obtain ⟨last, hlast⟩ := Outline.exists_getElem?_of_lt
      (show body.lines.stop - 1 < (Outline.ofText t).length by omega)
    have hsucc : body.lines.stop - 1 + 1 = body.lines.stop := by omega
    have hlastLine := (Outline.getElem?_ofText hlast).1
    let open_ := last.line.terminator == .none
    refine ⟨block body.indent l.line.terminator.orLf.toText open_ rendered, ?_,
      Or.inr (Or.inr ⟨hlt, bodyEdits_of_lt hlt hlastLine rendered⟩)⟩
    by_cases hrendered : rendered = []
    · rw [hrendered, block_nil]
      exact .none rfl
    · refine .block hrendered ?_ open_ ?_
      · -- the key line is not the last one
        intro hnone
        have hlength := Text.drop_lines_of_terminator_eq_none hkeyLine hnone
        rw [List.drop_eq_nil_iff] at hlength
        rw [Outline.length_ofText] at hstop
        omega
      · intro hopen
        have hnone :=
          Text.drop_lines_of_terminator_eq_none hlastLine (by simpa [open_] using hopen)
        rwa [hsucc] at hnone

/-- The end of a body lies below its key line and before `stop`. -/
theorem body_stop_bounds (o : Outline) (kind : BodyKind) (hstop : index < stop) :
    index + 1 ≤ (o.body index stop kind).lines.stop ∧
      (o.body index stop kind).lines.stop ≤ stop := by
  rcases Outline.body_cases o index stop kind with hempty | ⟨hstart, hlt, hle, -, -⟩
  · rw [hempty]
    exact ⟨Nat.le_refl _, hstop⟩
  · omega

theorem chain_contentSpan (hline : (Outline.ofText t)[index]? = some l) (insert : Text) :
    Chain (t.lineOffset index) (t.lineOffset (index + 1)) [⟨l.line.contentSpan, insert⟩] := by
  have hl := (Outline.getElem?_ofText hline).1
  have hstart := Text.start_eq_lineOffset hl
  have hstop := Text.lineOffset_succ hl
  rw [Line.raw, Text.size_append] at hstop
  refine ⟨?_, ?_, ?_⟩
  · simp [Line.contentSpan, hstart]
  · simp [Line.contentSpan]
  · simp only [Chain, Line.contentSpan, hstart]
    omega

theorem chain_headEdits (hline : (Outline.ofText t)[index]? = some l) (k : KeyLine)
    (rendered : List Text) (empty : Text) :
    Chain (t.lineOffset index) (t.lineOffset (index + 1)) (headEdits l k rendered empty) := by
  rcases headEdits_cases l k rendered empty with hnone | ⟨head, hhead⟩
  · rw [hnone]
    exact Text.lineOffset_le_lineOffset (Nat.le_succ index)
  · rw [hhead]
    exact chain_contentSpan hline head

theorem chain_bodyEdits (kind : BodyKind) (hline : (Outline.ofText t)[index]? = some l)
    (hstop : index < stop) (rendered : List Text) :
    Chain (t.lineOffset (index + 1))
      (t.lineOffset ((Outline.ofText t).body index stop kind).lines.stop)
      (bodyEdits (Outline.ofText t) l ((Outline.ofText t).body index stop kind) rendered) := by
  have hend := (body_stop_bounds (Outline.ofText t) kind hstop).1
  obtain ⟨text, -, ⟨-, -, hnone⟩ | ⟨-, -, -, hinsert⟩ | ⟨hlt, hreplace⟩⟩ :=
    bodyEdits_cases hline (rfl : (Outline.ofText t).body index stop kind = _) rendered
  · rw [hnone]
    exact Text.lineOffset_le_lineOffset hend
  · rw [hinsert]
    exact ⟨Nat.le_refl _, Nat.le_refl _, Text.lineOffset_le_lineOffset hend⟩
  · rw [hreplace]
    refine ⟨Text.lineOffset_le_lineOffset ?_, Text.lineOffset_le_lineOffset (Nat.le_of_lt hlt),
      Nat.le_refl _⟩
    rcases Outline.body_cases (Outline.ofText t) index stop kind with hempty | ⟨hstart, -⟩
    · rw [hempty] at hlt
      exact absurd hlt (Nat.lt_irrefl _)
    · exact hstart

/-- The edits of a block follow one another from the start of the key line to
the end of the body. -/
theorem chain_blockEdits (kind : BodyKind) (hline : (Outline.ofText t)[index]? = some l)
    (hstop : index < stop) (k : KeyLine) (rendered : List Text) (empty : Text) :
    Chain (t.lineOffset index)
      (t.lineOffset ((Outline.ofText t).body index stop kind).lines.stop)
      (blockEdits (Outline.ofText t) l k ((Outline.ofText t).body index stop kind) rendered
        empty) :=
  (chain_headEdits hline k rendered empty).append (chain_bodyEdits kind hline hstop rendered)

theorem onBoundaries_contentSpan (hline : (Outline.ofText t)[index]? = some l)
    (insert : Text) : OnBoundaries t [⟨l.line.contentSpan, insert⟩] := by
  intro e he
  rw [List.mem_singleton.mp he]
  have hl := (Outline.getElem?_ofText hline).1
  refine ⟨?_, Text.isBoundary_contentSpan_stop hl⟩
  have hstart := Text.isBoundary_lineOffset t index
  rwa [← Text.start_eq_lineOffset hl] at hstart

theorem onBoundaries_blockEdits (stop : Nat) (kind : BodyKind)
    (hline : (Outline.ofText t)[index]? = some l) (k : KeyLine) (rendered : List Text)
    (empty : Text) :
    OnBoundaries t (blockEdits (Outline.ofText t) l k ((Outline.ofText t).body index stop kind)
      rendered empty) := by
  intro e he
  rw [blockEdits, List.mem_append] at he
  rcases he with he | he
  · rcases headEdits_cases l k rendered empty with hnone | ⟨head, hhead⟩
    · simp [hnone] at he
    · exact onBoundaries_contentSpan hline head e (by rwa [hhead] at he)
  · obtain ⟨text, -, ⟨-, -, hnone⟩ | ⟨-, -, -, hinsert⟩ | ⟨-, hreplace⟩⟩ :=
      bodyEdits_cases hline (rfl : (Outline.ofText t).body index stop kind = _) rendered
    · simp [hnone] at he
    · rw [hinsert, List.mem_singleton] at he
      rw [he]
      exact ⟨Text.isBoundary_lineOffset t _, Text.isBoundary_lineOffset t _⟩
    · rw [hreplace, List.mem_singleton] at he
      rw [he]
      exact ⟨Text.isBoundary_lineOffset t _, Text.isBoundary_lineOffset t _⟩

theorem fitsSorted_blockEdits (kind : BodyKind) (hline : (Outline.ofText t)[index]? = some l)
    (hstop : index < stop) (k : KeyLine) (rendered : List Text) (empty : Text) :
    Edit.fitsSorted t 0 (Edit.sortByStart (blockEdits (Outline.ofText t) l k
      ((Outline.ofText t).body index stop kind) rendered empty)) = true := by
  have hchain := chain_blockEdits kind hline hstop k rendered empty
  rw [Edit.sortByStart_of_pairwise hchain.pairwise]
  exact Edit.fitsSorted_of_chain (hchain.mono (Nat.zero_le _) (Nat.le_refl _))
    (Edit.isBoundary_zero t) (onBoundaries_blockEdits stop kind hline k rendered empty)

end Marginalia.Yaml.Patch
