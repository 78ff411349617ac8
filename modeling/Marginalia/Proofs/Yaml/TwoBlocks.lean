import Marginalia.Proofs.Text.Splices
import Marginalia.Proofs.Yaml.ListText
import Marginalia.Proofs.Yaml.Reorder

/-!
# The lines of a text with two other blocks

Two blocks with lines, one below the other, get other lines.  The new text
consists of the lines above the upper key, the two key lines without their
values, the blank lines and comments above the first entries, the new lines with
the padding of the old ones, and the lines between and below the blocks.  In
which order the edits of the two blocks are given does not matter.
-/

namespace Marginalia.Yaml.Patch

open Edit (Chain OnBoundaries)

/-- A block with lines below its key, as the patcher finds it in a module that
ends at `stop`. -/
structure FilledBlock (t : Text) (stop : Nat) (kind : BodyKind) where
  index : Nat
  line : OutlineLine
  key : KeyLine
  body : Body
  lineAt : (Outline.ofText t)[index]? = some line
  parts : KeyLine.ofLine? line = some key
  inside : index < stop
  found : (Outline.ofText t).body index stop kind = body
  filled : body.lines.start < body.lines.stop

namespace FilledBlock

variable {t : Text} {stop : Nat} {kind : BodyKind} (f : FilledBlock t stop kind)

theorem bounds : f.index < f.body.lines.start ∧ f.body.lines.stop ≤ t.lines.length := by
  have hcases := Outline.body_cases (Outline.ofText t) f.index stop kind
  rw [f.found, Outline.length_ofText] at hcases
  rcases hcases with hempty | ⟨hstart, -, -, hlength, -⟩
  · have hfilled := f.filled
    rw [hempty] at hfilled
    exact absurd hfilled (Nat.lt_irrefl _)
  · exact ⟨hstart, hlength⟩

theorem getElem?_line : t.lines[f.index]? = some f.line.line :=
  (Outline.getElem?_ofText f.lineAt).1

def last : Line :=
  t.lines[f.body.lines.stop - 1]?.getD f.line.line

theorem getElem?_last : t.lines[f.body.lines.stop - 1]? = some f.last := by
  have hlt : f.body.lines.stop - 1 < t.lines.length := by
    have hfilled := f.filled
    have hlength := f.bounds.2
    omega
  rw [last, List.getElem?_eq_getElem hlt]
  rfl

/-- The blank lines and comments above the first entry. -/
def lead : List Line :=
  (t.lines.take f.body.lines.start).drop (f.index + 1)

def ending : Terminator :=
  f.line.line.terminator

/-- The ending of the last new line: none where the text ended there without
one. -/
def lastEnding : Terminator :=
  if f.last.terminator = .none then .none else f.ending

/-- The line of the key, the lines above the first entry and the new lines. -/
def rewritten (rendered : List Text) : List (Text × Terminator) :=
  (f.key.head ++ f.key.comment, f.ending) :: (f.lead.map Line.parts ++
    writtenLines f.body.indent f.ending f.lastEnding rendered)

/-- The body ends above a key further down that does not stand in it. -/
theorem stop_le_of_lt {kind' : BodyKind} (g : FilledBlock t stop kind') (h : f.index < g.index)
    (hout : ¬f.body.lines.Has g.index) : f.body.lines.stop ≤ g.index := by
  rw [← f.found] at hout ⊢
  exact body_stop_le_of_not_has h g.lineAt (KeyLine.isContent_of_ofLine? g.parts) hout

/-- The edits that write lines in the place of the block. -/
def edits (rendered : List Text) (empty : Text) : List Edit :=
  blockEdits (Outline.ofText t) f.line f.key f.body rendered empty

theorem chain_edits (rendered : List Text) (empty : Text) :
    Chain (t.lineOffset f.index) (t.lineOffset f.body.lines.stop) (f.edits rendered empty) := by
  have hchain := chain_blockEdits kind f.lineAt f.inside f.key rendered empty
  rwa [f.found] at hchain

theorem onBoundaries_edits (rendered : List Text) (empty : Text) :
    OnBoundaries t (f.edits rendered empty) := by
  have hcut := onBoundaries_blockEdits stop kind f.lineAt f.key rendered empty
  rwa [f.found] at hcut

/-! ## One block -/

theorem ending_ne_none : f.ending ≠ .none := by
  intro hnone
  have hdrop := Text.drop_lines_of_terminator_eq_none f.getElem?_line hnone
  rw [List.drop_eq_nil_iff] at hdrop
  have hfilled := f.filled
  have hbounds := f.bounds
  omega

theorem orLf_ending : f.ending.orLf = f.ending := by
  cases hending : f.ending with
  | none => exact absurd hending f.ending_ne_none
  | lf => rfl
  | crlf => rfl

/-- Nothing stands below an open last line. -/
theorem drop_stop_of_lastEnding (h : f.lastEnding = .none) :
    t.lines.drop f.body.lines.stop = [] := by
  have hopen : f.last.terminator = .none := by
    unfold lastEnding at h
    split at h
    · assumption
    · exact absurd h f.ending_ne_none
  have hdrop := Text.drop_lines_of_terminator_eq_none f.getElem?_last hopen
  have hsucc : f.body.lines.stop - 1 + 1 = f.body.lines.stop := by
    have hfilled := f.filled
    omega
  rwa [hsucc] at hdrop

theorem foldr_bodyEdits (rendered : List Text) :
    (bodyEdits (Outline.ofText t) f.line f.body rendered).foldr Edit.apply t =
      Text.joinLines (t.lines.take f.body.lines.start) ++
        (Text.ofParts (writtenLines f.body.indent f.ending f.lastEnding rendered) ++
          Text.joinLines (t.lines.drop f.body.lines.stop)) := by
  have hending : f.line.line.terminator.orLf = f.ending := f.orLf_ending
  rw [bodyEdits_of_lt f.filled f.getElem?_last, hending, List.foldr_cons, List.foldr_nil,
    apply_lines, block_eq_ofParts, lastEnding]

theorem applySorted_edits {rendered : List Text} (hne : rendered ≠ []) (empty : Text) :
    Edit.applySorted t 0 (f.edits rendered empty) = Text.joinLines (t.lines.take f.index) ++
      (Text.ofParts (f.rewritten rendered) ++ Text.joinLines (t.lines.drop f.body.lines.stop)) := by
  have happly := applyAll_blockEdits f.lineAt f.inside f.found f.key empty
    (f.foldr_bodyEdits rendered)
  have hsort : Edit.sortByStart (f.edits rendered empty) = f.edits rendered empty :=
    Edit.sortByStart_of_pairwise (f.chain_edits rendered empty).pairwise
  have hsome : rendered.isEmpty = false := by simpa using hne
  rw [Edit.applyAll, ← edits, hsort, hsome] at happly
  rw [happly, rewritten, aboveBody, Text.ofParts_cons, Text.ofParts_append,
    Text.ofParts_map_parts]
  simp [lead, ending]

/-! ## The lines of one block -/

theorem laid_key : Text.Laid [(f.key.head ++ f.key.comment, f.ending)] := by
  have hmem := List.mem_of_getElem? f.getElem?_line
  obtain ⟨front, rest, hhead, hcontent, hsuffix⟩ := KeyLine.exists_head f.lineAt f.parts
  rw [hhead, List.append_assoc, List.singleton_append] at hcontent
  have hadmits := KeyLine.admits_append_comment hmem hcontent hsuffix [] (by simp) (by simp)
  have hsame : front ++ ':' :: ([] ++ f.key.comment) = f.key.head ++ f.key.comment := by
    simp [hhead]
  rw [hsame] at hadmits
  exact .cons f.ending_ne_none hadmits.not_mem_lf hadmits.getLast?_ne .nil

/-- The new lines are told from one another and, where something stands below,
from that. -/
theorem laid_rewritten {rendered : List Text}
    (hrendered : ∀ l ∈ rendered, l ≠ [] ∧ Text.IsLine l) :
    Text.Laid (f.rewritten rendered) ∧
      (f.lastEnding ≠ .none → Text.Ended (f.rewritten rendered)) := by
  obtain ⟨hwritten, hended⟩ :=
    laid_writtenLines f.body.indent f.lastEnding f.ending_ne_none hrendered
  have hlt : f.body.lines.start < t.lines.length := Nat.lt_of_lt_of_le f.filled f.bounds.2
  have hlead : Text.Laid (f.lead.map Line.parts) := Text.laid_stretch t _ _
  have hleadEnded : Text.Ended (f.lead.map Line.parts) := Text.ended_stretch _ hlt
  have hkeyEnded : Text.Ended [(f.key.head ++ f.key.comment, f.ending)] :=
    List.forall_mem_singleton.mpr f.ending_ne_none
  rw [rewritten, ← List.singleton_append]
  refine ⟨?_, fun hlast => ?_⟩
  · refine Text.laid_append_iff.mpr ⟨f.laid_key, ?_, Or.inr hkeyEnded⟩
    exact Text.laid_append_iff.mpr ⟨hlead, hwritten, Or.inr hleadEnded⟩
  · intro p hp
    rcases List.mem_append.mp hp with hp | hp
    · exact hkeyEnded p hp
    · rcases List.mem_append.mp hp with hp | hp
      · exact hleadEnded p hp
      · exact hended hlast p hp

end FilledBlock

/-! ## Both blocks -/

section Both

variable {t : Text} {stop : Nat} {upperKind lowerKind : BodyKind}
  (f : FilledBlock t stop upperKind) (g : FilledBlock t stop lowerKind)

/-- The lines of the text with other lines in both blocks. -/
def withBlocks (upper lower : List Text) : List (Text × Terminator) :=
  (t.lines.take f.index).map Line.parts ++ (f.rewritten upper ++
    (((t.lines.take g.index).drop f.body.lines.stop).map Line.parts ++ (g.rewritten lower ++
      (t.lines.drop g.body.lines.stop).map Line.parts)))

variable (hbelow : f.body.lines.stop ≤ g.index)

include hbelow

theorem index_lt_index : f.index < g.index := by
  have hfilled := f.filled
  have hbounds := f.bounds
  omega

theorem joinLines_drop_stop : Text.joinLines (t.lines.drop f.body.lines.stop) =
    Text.joinLines ((t.lines.take g.index).drop f.body.lines.stop) ++
      Text.joinLines (t.lines.drop g.index) := by
  have hlength : g.index ≤ t.lines.length := by
    have hfilled := g.filled
    have hbounds := g.bounds
    omega
  have hdrop := congrArg (List.drop f.body.lines.stop) (List.take_append_drop g.index t.lines)
  rw [List.drop_append_of_le_length (by rw [List.length_take]; omega)] at hdrop
  rw [← hdrop, Text.joinLines_append]

theorem laid_withBlocks {upper lower : List Text} (hupper : ∀ l ∈ upper, l ≠ [] ∧ Text.IsLine l)
    (hlower : ∀ l ∈ lower, l ≠ [] ∧ Text.IsLine l) : Text.Laid (withBlocks f g upper lower) := by
  obtain ⟨hupperLaid, hupperEnded⟩ := f.laid_rewritten hupper
  obtain ⟨hlowerLaid, hlowerEnded⟩ := g.laid_rewritten hlower
  have hindex : g.index < t.lines.length := (List.getElem?_eq_some_iff.mp g.getElem?_line).1
  have hlast : f.lastEnding ≠ .none := by
    intro hnone
    have hdrop := f.drop_stop_of_lastEnding hnone
    rw [List.drop_eq_nil_iff] at hdrop
    omega
  have hbeneath : (t.lines.drop g.body.lines.stop).map Line.parts = [] ∨
      Text.Ended (g.rewritten lower) := by
    by_cases hnone : g.lastEnding = .none
    · exact Or.inl (by rw [g.drop_stop_of_lastEnding hnone, List.map_nil])
    · exact Or.inr (hlowerEnded hnone)
  have habove := Nat.lt_trans (index_lt_index f g hbelow) hindex
  refine Text.laid_append_iff.mpr ⟨Text.laid_stretch t 0 _, ?_,
    Or.inr (Text.ended_stretch 0 habove)⟩
  refine Text.laid_append_iff.mpr ⟨hupperLaid, ?_, Or.inr (hupperEnded hlast)⟩
  refine Text.laid_append_iff.mpr ⟨Text.laid_stretch t _ _, ?_,
    Or.inr (Text.ended_stretch _ hindex)⟩
  have hbottom := Text.laid_stretch t g.body.lines.stop t.lines.length
  rw [List.take_length] at hbottom
  exact Text.laid_append_iff.mpr ⟨hlowerLaid, hbottom, hbeneath⟩

section Edits

variable (upper lower : List Text) (empty empty' : Text)

/-- The edits of the upper block lead down to the key of the lower one. -/
theorem chain_upper : Chain 0 (t.lineOffset g.index) (f.edits upper empty) :=
  (f.chain_edits upper empty).mono (Nat.zero_le _) (Text.lineOffset_le_lineOffset hbelow)

/-- In whichever order they are given, the edits of the upper block are sorted
above the others. -/
theorem sortByStart_both {es : List Edit}
    (hes : es = f.edits upper empty ++ g.edits lower empty' ∨
      es = g.edits lower empty' ++ f.edits upper empty) :
    Edit.sortByStart es = f.edits upper empty ++ g.edits lower empty' := by
  have hchain := (chain_upper f g hbelow upper empty).append (g.chain_edits lower empty')
  rcases hes with rfl | rfl
  · exact Edit.sortByStart_of_pairwise hchain.pairwise
  · refine Edit.sortByStart_append_of_lt (g.chain_edits lower empty').pairwise
      (f.chain_edits upper empty).pairwise ?_
    rw [FilledBlock.edits, FilledBlock.edits, ← f.found, ← g.found]
    refine start_lt_start f.lineAt g.lineAt (index_lt_index f g hbelow) g.inside ?_ fun hempty => ?_
    · rw [f.found]
      exact hbelow
    · have hfilled := f.filled
      rw [f.found] at hempty
      rw [hempty] at hfilled
      exact absurd hfilled (Nat.lt_irrefl _)

/-- The edits of both blocks make the text with both blocks. -/
theorem applyAll?_both {upper lower : List Text} (hupper : upper ≠ []) (hlower : lower ≠ [])
    {es : List Edit} (hes : es = f.edits upper empty ++ g.edits lower empty' ∨
      es = g.edits lower empty' ++ f.edits upper empty) :
    Edit.applyAll? es t = some (Text.ofParts (withBlocks f g upper lower)) := by
  have hsort := sortByStart_both f g hbelow upper lower empty empty' hes
  have hchain := chain_upper f g hbelow upper empty
  have hcut := f.onBoundaries_edits upper empty
  have hfits : Edit.fitsSorted t 0 (Edit.sortByStart es) = true := by
    rw [hsort]
    exact Edit.fitsSorted_of_chain (hchain.append (g.chain_edits lower empty'))
      (Edit.isBoundary_zero t) (onBoundaries_append hcut (g.onBoundaries_edits lower empty'))
  have happly := Edit.applySorted_append (Text.isBoundary_lineOffset t g.index) hcut hchain
    (g.chain_edits lower empty')
    (x := Text.joinLines (t.lines.take f.index) ++ (Text.ofParts (f.rewritten upper) ++
      Text.joinLines ((t.lines.take g.index).drop f.body.lines.stop)))
    (by rw [f.applySorted_edits hupper, Text.after_lineOffset, joinLines_drop_stop f g hbelow]
        simp only [List.append_assoc])
    (by rw [g.applySorted_edits hlower, Text.before_lineOffset])
  rw [Edit.applyAll?, if_pos hfits, Edit.applyAll, hsort, happly, withBlocks]
  simp only [Text.ofParts_append, Text.ofParts_map_parts, List.append_assoc]

/-- The lines with both blocks are the lines of the new text. -/
theorem exists_lines_eq_withBlocks {upper lower : List Text} (hupper : upper ≠ [])
    (hlower : lower ≠ []) (hupperLines : ∀ l ∈ upper, l ≠ [] ∧ Text.IsLine l)
    (hlowerLines : ∀ l ∈ lower, l ≠ [] ∧ Text.IsLine l) {es : List Edit}
    (hes : es = f.edits upper empty ++ g.edits lower empty' ∨
      es = g.edits lower empty' ++ f.edits upper empty) :
    ∃ u, Edit.applyAll? es t = some u ∧ u.lines.map Line.parts = withBlocks f g upper lower :=
  ⟨_, applyAll?_both f g hbelow empty empty' hupper hlower hes,
    (laid_withBlocks f g hbelow hupperLines hlowerLines).map_parts_lines⟩

end Edits

end Both

end Marginalia.Yaml.Patch
