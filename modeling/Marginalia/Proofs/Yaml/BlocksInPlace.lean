import Marginalia.Proofs.Text.Splices
import Marginalia.Proofs.Yaml.BlockSite
import Marginalia.Proofs.Yaml.Reorder
import Marginalia.Proofs.Yaml.TwoPaths

/-!
# Two blocks with other entries

A reorder writes two blocks of a module at once.  The text afterwards has both
of them, in whichever order the edits are given, and is read with the new blocks
in the place of the old ones when the reader finds the old blocks where the
patcher looks for them.
-/

namespace Marginalia.Yaml

open Source (withLineFeeds)

namespace Patch

open Edit (Chain OnBoundaries)

/-- The text from below a body through the colon of a key further down, as it is
read. -/
def betweenBlocks (t : Text) (upper : Body) (index : Nat) (key : KeyLine) : Text :=
  withLineFeeds (Text.joinLines ((t.lines.take index).drop upper.lines.stop) ++ key.head)

/-- Two blocks of a module that the reader finds where the patcher looks for
them: each on the line of its key and in the lines of its body, inside mappings
without anchors and tags, one below the other. -/
structure BlocksInPlace (t module : Text) (upperKind lowerKind : BodyKind)
    (upperPath lowerPath : Text) where
  upper : BlockSite t upperKind
  lower : BlockSite t lowerKind
  /-- What the reader takes for the values. -/
  upperValue : List Token
  lowerValue : List Token
  /-- The numbers of events of the values. -/
  upperSize : Nat
  lowerSize : Nat
  /-- What the reader finds beneath the lower body. -/
  later : List Token
  located : ∃ range, (Outline.ofText t).locate module upperPath = .ok (range, upper.index) ∧
    (Outline.ofText t).locate module lowerPath = .ok (range, lower.index) ∧
    (Outline.ofText t).body upper.index range.stop upperKind = upper.body ∧
    (Outline.ofText t).body lower.index range.stop lowerKind = lower.body
  upperAdmits : admitsBlock upperKind.opening upper.key = true
  lowerAdmits : admitsBlock lowerKind.opening lower.key = true
  /-- The upper block has lines, and the lower one stands below them. -/
  block : upper.body.lines.start < upper.body.lines.stop
  below : upper.body.lines.stop ≤ lower.index
  /-- Neither path leads through the other one. -/
  outside : ¬Outline.segments upperPath <+: Outline.segments lowerPath
  around : ¬Outline.segments lowerPath <+: Outline.segments upperPath
  /-- The paths leave room for a collection. -/
  upperRoom : (Outline.segments upperPath).length + 2 ≤ Value.nestingLimit
  lowerRoom : (Outline.segments lowerPath).length + 2 ≤ Value.nestingLimit
  /-- For the reader, too, the keys end at the colons. -/
  upperThrough : Scan.through? (throughKey t upper.index upper.key).length
    (Scan.start (throughKey t upper.index upper.key)) = some upper.state
  lowerThrough : Scan.through? (betweenBlocks t upper.body lower.index lower.key).length
    (Scan.inBlock ⟨betweenBlocks t upper.body lower.index lower.key, 0, 0⟩ upper.state.indents true
      []) = some lower.state
  /-- The keys on the way are those of the paths. -/
  upperLeads : Node.LeadsTo (module :: Outline.segments upperPath) upper.state.tokens.reverse
  lowerLeads : Node.LeadsTo (module :: Outline.segments lowerPath)
    (upper.state.tokens.reverse ++ (upperValue ++ lower.state.tokens.reverse))
  /-- What stands beneath the bodies is no deeper than their keys. -/
  next : (Scan.skipGap false true false 0 0
    (betweenBlocks t upper.body lower.index lower.key)).1.rest ≠ []
  upperShallow : (Scan.skipGap false true false 0 0
    (betweenBlocks t upper.body lower.index lower.key)).1.column ≤ upper.indent
  upperNoTab : (Scan.skipGap false true false 0 0
    (betweenBlocks t upper.body lower.index lower.key)).1.rest.head? ≠ some '\t'
  lowerShallow : (Scan.skipGap false true false 0 0
      (withLineFeeds (beneathBody t lower.body))).1.rest = [] ∨
    (Scan.skipGap false true false 0 0
      (withLineFeeds (beneathBody t lower.body))).1.column ≤ lower.indent
  lowerNoTab : (Scan.skipGap false true false 0 0
    (withLineFeeds (beneathBody t lower.body))).1.rest.head? ≠ some '\t'
  /-- The values end with the bodies. -/
  ends : (Scan.inBlock ⟨withLineFeeds (beneathBody t lower.body), 0, 0⟩ lower.state.indents true
    []).finish = .ok later.reverse
  tokens : Token.ofText t = .ok (upper.state.tokens.reverse ++ (upperValue ++
    (lower.state.tokens.reverse ++ (lowerValue ++ later))))
  upperFills : ∀ rest, Node.FillsValue upperSize upperValue (lower.state.tokens.reverse ++ rest)
  lowerFills : Node.FillsValue lowerSize lowerValue later
  /-- Without the values, too, aliases are followed no more often than the
  document allows. -/
  few : ∀ d, Node.ofText t = .ok d →
    ∃ v, Value.ofDocument ⟨d.root, d.events - (upperSize + lowerSize)⟩ = .ok v

end Patch

theorem ReadBlock.replaces {kind : BodyKind} (b : ReadBlock kind) (deeper : Bool) :
    b.node.Replaces b.size (b.written deeper) b.levels b.value where
  isValue := b.isValue deeper
  anchored := b.anchored
  means := b.means

namespace Patch

open Edit (Chain OnBoundaries)

/-! ## The edits -/

namespace BlockSite

variable {t : Text} {kind : BodyKind} (f : BlockSite t kind)

def edits (b : ReadBlock kind) : List Edit :=
  blockEdits (Outline.ofText t) f.line f.key f.body b.lines kind.empty

theorem chain_edits (b : ReadBlock kind) :
    Chain (t.lineOffset f.index) (t.lineOffset f.body.lines.stop) (f.edits b) := by
  obtain ⟨stop, hstop, hbody⟩ := f.found
  have hchain := chain_blockEdits kind f.lineAt hstop f.key b.lines kind.empty
  rwa [hbody] at hchain

theorem onBoundaries_edits (b : ReadBlock kind) : OnBoundaries t (f.edits b) := by
  obtain ⟨stop, -, hbody⟩ := f.found
  have hcut := onBoundaries_blockEdits stop kind f.lineAt f.key b.lines kind.empty
  rwa [hbody] at hcut

theorem exists_applySorted_edits (b : ReadBlock kind) :
    ∃ text, IsBodyText t f.line f.body b.lines text ∧
      Edit.applySorted t 0 (f.edits b) = Text.joinLines (t.lines.take f.index) ++
        (f.key.head ++ f.written b text (beneathBody t f.body)) := by
  obtain ⟨stop, hstop, hbody⟩ := f.found
  obtain ⟨text, htext, happly⟩ :=
    exists_applyAll_blockEdits f.lineAt hstop hbody f.key b.lines kind.empty
  refine ⟨text, htext, ?_⟩
  have hsort : Edit.sortByStart (blockEdits (Outline.ofText t) f.line f.key f.body b.lines
      kind.empty) = f.edits b := Edit.sortByStart_of_pairwise (f.chain_edits b).pairwise
  rw [Edit.applyAll, hsort] at happly
  refine happly.trans ?_
  rw [written, KeyLine.withValue]
  split <;> simp [KeyLine.gapText, above]

end BlockSite

namespace BlocksInPlace

variable {t module upperPath lowerPath : Text} {upperKind lowerKind : BodyKind}
  (f : BlocksInPlace t module upperKind lowerKind upperPath lowerPath)

def withBlocks (upper : ReadBlock upperKind) (lower : ReadBlock lowerKind)
    (upperText lowerText : Text) : Text :=
  Text.joinLines (t.lines.take f.upper.index) ++ (f.upper.key.head ++
    f.upper.written upper upperText
      (Text.joinLines ((t.lines.take f.lower.index).drop f.upper.body.lines.stop) ++
        (f.lower.key.head ++ f.lower.written lower lowerText (beneathBody t f.lower.body))))

theorem beneath_upper : beneathBody t f.upper.body =
    Text.joinLines ((t.lines.take f.lower.index).drop f.upper.body.lines.stop) ++
      Text.joinLines (t.lines.drop f.lower.index) := by
  have hlength : f.lower.index ≤ t.lines.length := by
    have hlt := Outline.lt_length_of_getElem? f.lower.lineAt
    rw [Outline.length_ofText] at hlt
    exact Nat.le_of_lt hlt
  have hsplit := List.take_append_drop f.lower.index t.lines
  have hdrop := congrArg (List.drop f.upper.body.lines.stop) hsplit
  rw [List.drop_append_of_le_length (by rw [List.length_take]; have := f.below; omega)] at hdrop
  rw [beneathBody, ← hdrop, Text.joinLines_append]

theorem joinLines_drop_ne_nil : Text.joinLines (t.lines.drop f.lower.index) ≠ [] := by
  obtain ⟨front, rest, hhead, hcontent, -⟩ := KeyLine.exists_head f.lower.lineAt f.lower.parts
  have hline := Text.joinLines_take_append_line (Outline.getElem?_ofText f.lower.lineAt).1
  have hsplit := Text.joinLines_take_append_drop t f.lower.index
  have hdrop := List.append_cancel_left (hsplit.trans hline.symm)
  rw [hdrop, hcontent, hhead]
  simp

theorem chain_edits (upper : ReadBlock upperKind) (lower : ReadBlock lowerKind) :
    Chain (t.lineOffset f.upper.index) (t.lineOffset f.lower.body.lines.stop)
      (f.upper.edits upper ++ f.lower.edits lower) :=
  ((f.upper.chain_edits upper).mono (Nat.le_refl _)
    (Text.lineOffset_le_lineOffset f.below)).append (f.lower.chain_edits lower)

/-- In whichever order they are given, the edits of the upper block are sorted
above the others. -/
theorem sortByStart_edits {upper : ReadBlock upperKind} {lower : ReadBlock lowerKind}
    {es : List Edit} (hes : es = f.upper.edits upper ++ f.lower.edits lower ∨
      es = f.lower.edits lower ++ f.upper.edits upper) :
    Edit.sortByStart es = f.upper.edits upper ++ f.lower.edits lower := by
  rcases hes with rfl | rfl
  · exact Edit.sortByStart_of_pairwise (f.chain_edits upper lower).pairwise
  · obtain ⟨range, -, hlocate, hupperBody, hlowerBody⟩ := f.located
    have hindex : f.upper.index < f.lower.index :=
      Nat.lt_of_lt_of_le (lt_start_of_body hupperBody)
        (Nat.le_of_lt (Nat.lt_of_lt_of_le f.block f.below))
    refine Edit.sortByStart_append_of_lt (f.lower.chain_edits lower).pairwise
      (f.upper.chain_edits upper).pairwise ?_
    rw [BlockSite.edits, BlockSite.edits, ← hupperBody, ← hlowerBody]
    refine start_lt_start f.upper.lineAt f.lower.lineAt hindex (Outline.locate_bounds hlocate).2.1
      ?_ ?_
    · rw [hupperBody]
      exact f.below
    · intro hempty
      have hblock := f.block
      rw [hupperBody] at hempty
      rw [hempty] at hblock
      exact absurd hblock (Nat.lt_irrefl _)

/-- The edits of both blocks, sorted, make the text with both blocks. -/
theorem exists_applySorted (upper : ReadBlock upperKind) (lower : ReadBlock lowerKind) :
    ∃ upperText lowerText, IsBodyText t f.upper.line f.upper.body upper.lines upperText ∧
      IsBodyText t f.lower.line f.lower.body lower.lines lowerText ∧
      Edit.applySorted t 0 (f.upper.edits upper ++ f.lower.edits lower) =
        f.withBlocks upper lower upperText lowerText := by
  obtain ⟨upperText, hupperText, hupper⟩ := f.upper.exists_applySorted_edits upper
  obtain ⟨lowerText, hlowerText, hlower⟩ := f.lower.exists_applySorted_edits lower
  refine ⟨upperText, lowerText, hupperText, hlowerText, ?_⟩
  have hchain := (f.upper.chain_edits upper).mono (Nat.zero_le _)
    (Text.lineOffset_le_lineOffset f.below)
  have hbeneath := Text.after_lineOffset t f.lower.index
  have happly := Edit.applySorted_append (Text.isBoundary_lineOffset t f.lower.index)
    (f.upper.onBoundaries_edits upper) hchain (f.lower.chain_edits lower)
    (x := Text.joinLines (t.lines.take f.upper.index) ++ (f.upper.key.head ++
      f.upper.written upper upperText
        (Text.joinLines ((t.lines.take f.lower.index).drop f.upper.body.lines.stop))))
    (by rw [hupper, hbeneath, f.beneath_upper]; simp [BlockSite.written])
    (by rw [hlower, Text.before_lineOffset])
  rw [happly, withBlocks]
  simp [BlockSite.written]

/-! ## Reading both blocks -/

section Reading

variable {upper : ReadBlock upperKind} {lower : ReadBlock lowerKind} {upperText lowerText : Text}
  (hupper : IsBodyText t f.upper.line f.upper.body upper.lines upperText)
  (hlower : IsBodyText t f.lower.line f.lower.body lower.lines lowerText)

include hupper hlower

/-- The text with both blocks may stand in a document. -/
theorem isAllowed_withBlocks :
    ∀ c ∈ f.withBlocks upper lower upperText lowerText, Source.isAllowed c = true := by
  have hall := Token.isAllowed_of_ofText f.tokens
  obtain ⟨huhead, hucomment, huabove, hubeneath⟩ := f.upper.isAllowed_around hall
  obtain ⟨hlhead, hlcomment, hlabove, hlbeneath⟩ := f.lower.isAllowed_around hall
  have hmiddle : ∀ c ∈ Text.joinLines ((t.lines.take f.lower.index).drop f.upper.body.lines.stop),
      Source.isAllowed c = true := by
    intro c hc
    refine hubeneath c ?_
    rw [f.beneath_upper]
    exact List.mem_append_left _ hc
  have hlowerWritten := f.lower.isAllowed_written hlower hlcomment hlabove hlbeneath
  have hbeneath : ∀ c ∈
      Text.joinLines ((t.lines.take f.lower.index).drop f.upper.body.lines.stop) ++
      (f.lower.key.head ++ f.lower.written lower lowerText (beneathBody t f.lower.body)),
        Source.isAllowed c = true := by
    simp only [List.mem_append]
    rintro c (hc | hc | hc)
    · exact hmiddle c hc
    · exact hlhead c hc
    · exact hlowerWritten c hc
  have hupperWritten := f.upper.isAllowed_written hupper hucomment huabove hbeneath
  have habove : ∀ c ∈ Text.joinLines (t.lines.take f.upper.index), Source.isAllowed c = true := by
    intro c hc
    refine hall c ?_
    rw [← Text.joinLines_take_append_drop t f.upper.index]
    exact List.mem_append_left _ hc
  simp only [withBlocks, List.mem_append]
  rintro c (hc | hc | hc)
  · exact habove c hc
  · exact huhead c hc
  · exact hupperWritten c hc

/-- With other blocks the tokens are the same around them. -/
theorem ofText_withBlocks :
    Token.ofText (f.withBlocks upper lower upperText lowerText) =
      .ok (f.upper.state.tokens.reverse ++
        (upper.written (decide (f.upper.indent < f.upper.body.indent)) ++
          (f.lower.state.tokens.reverse ++
            (lower.written (decide (f.lower.indent < f.lower.body.indent)) ++ f.later)))) := by
  let between := betweenBlocks t f.upper.body f.lower.index f.lower.key
  let lowerTail := f.lower.written lower lowerText (beneathBody t f.lower.body)
  let upperTail := Text.joinLines ((t.lines.take f.lower.index).drop f.upper.body.lines.stop) ++
    (f.lower.key.head ++ lowerTail)
  have hupperTail : withLineFeeds upperTail = between ++ withLineFeeds lowerTail :=
    KeyLine.withLineFeeds_head_append f.lower.lineAt f.lower.parts _ lowerTail
  -- the lower block behind its key
  obtain ⟨hlowerOpens, hlowerFinish⟩ := f.lower.finish_written hlower id
    (Scan.follows_lineFeed f.lowerShallow f.lowerNoTab)
  have hlowerRead : (Scan.inBlock ⟨withLineFeeds upperTail, 0, 0⟩ f.upper.state.indents true
      []).finish = .ok (f.later.reverse ++
        ((lower.written (decide (f.lower.indent < f.lower.body.indent))).reverse ++
          f.lower.state.tokens)) := by
    have hthrough := Scan.finish_append_of_through f.lowerThrough hlowerOpens
    rw [hupperTail]
    exact hthrough.trans (hlowerFinish.trans (congrArg (Except.map (· ++ _)) f.ends))
  -- the upper block behind its key
  have hfollows : Scan.Follows f.upper.indent ('\n' :: withLineFeeds upperTail) := by
    rw [hupperTail]
    have hskip := Scan.skipGap_append (withLineFeeds lowerTail) f.next
    refine Scan.follows_lineFeed (Or.inr ?_) ?_
    · rw [hskip]
      exact f.upperShallow
    · rw [hskip]
      obtain ⟨c, rest, hnext⟩ := List.exists_cons_of_ne_nil f.next
      have hnoTab := f.upperNoTab
      rw [hnext] at hnoTab
      simpa [Cursor.append, hnext] using hnoTab
  have hnone : beneathBody t f.upper.body = [] → upperTail = [] := by
    intro hnil
    rw [f.beneath_upper, List.append_eq_nil_iff] at hnil
    exact absurd hnil.2 f.joinLines_drop_ne_nil
  obtain ⟨hupperOpens, hupperFinish⟩ := f.upper.finish_written hupper hnone hfollows
  have hupperRead : f.upper.goesOn upperTail
      ((upper.written (decide (f.upper.indent < f.upper.body.indent))).reverse ++
        f.upper.state.tokens) = _ := congrArg (Except.map (· ++ _)) hlowerRead
  have hsource : Source.ofText (f.withBlocks upper lower upperText lowerText) =
      .ok (throughKey t f.upper.index f.upper.key ++
        withLineFeeds (f.upper.written upper upperText upperTail)) := by
    refine Source.ofText_eq_ok_iff.mpr ⟨f.isAllowed_withBlocks hupper hlower, ?_⟩
    exact (KeyLine.withLineFeeds_head_append f.upper.lineAt f.upper.parts _ _).symm
  have hrun := (Scan.finish_append_of_through f.upperThrough hupperOpens).trans
    (hupperFinish.trans hupperRead)
  rw [Token.ofText, hsource]
  exact bind_eq_ok_iff.mpr ⟨_, rfl, bind_eq_ok_iff.mpr ⟨_, hrun, congrArg Except.ok (by simp)⟩⟩

end Reading

end BlocksInPlace

/-- Other blocks in the place of two: the text parses, it has the values of the
new blocks, and the other modules keep their values. -/
theorem exists_lookup_of_blocksInPlace {t module upperPath lowerPath : Text}
    {upperKind lowerKind : BodyKind}
    (f : BlocksInPlace t module upperKind lowerKind upperPath lowerPath) {root : Value}
    (hroot : Value.ofText t = .ok root) {upper : ReadBlock upperKind} {lower : ReadBlock lowerKind}
    (hupper : upper.levels ≤ 1) (hlower : lower.levels ≤ 1) {es : List Edit}
    (hes : es = f.upper.edits upper ++ f.lower.edits lower ∨
      es = f.lower.edits lower ++ f.upper.edits upper) :
    ∃ u root', Edit.applyAll? es t = some u ∧ Value.ofText u = .ok root' ∧
      root'.lookup module upperPath = some upper.value ∧
      root'.lookup module lowerPath = some lower.value ∧
      ∀ other, other ≠ module → root'.get? other = root.get? other := by
  obtain ⟨upperText, lowerText, hupperText, hlowerText, happly⟩ := f.exists_applySorted upper lower
  have hsort := f.sortByStart_edits hes
  have hcut := onBoundaries_append (f.upper.onBoundaries_edits upper)
    (f.lower.onBoundaries_edits lower)
  have hfits : Edit.fitsSorted t 0 (Edit.sortByStart es) = true := by
    rw [hsort]
    exact Edit.fitsSorted_of_chain ((f.chain_edits upper lower).mono (Nat.zero_le _)
      (Nat.le_refl _)) (Edit.isBoundary_zero t) hcut
  have htext : Edit.applyAll es t = f.withBlocks upper lower upperText lowerText := by
    rw [Edit.applyAll, hsort, happly]
  have htokens := f.tokens
  rw [Value.ofText_eq, htokens] at hroot
  have hupperRoom := f.upperRoom
  have hlowerRoom := f.lowerRoom
  obtain ⟨old, old', vs, vs₁, vs₂, rfl, hdistinct, hlowerDiffer, hupperDiffer, hroot'⟩ :=
    Value.exists_ofTokens_of_two f.upperLeads f.lowerLeads f.upperFills f.lowerFills
      (upper.replaces (decide (f.upper.indent < f.upper.body.indent)))
      (lower.replaces (decide (f.lower.indent < f.lower.body.indent)))
      (by rw [List.length_cons]; omega) (by rw [List.length_cons]; omega)
      (fun d left hread => f.few d (Value.ofText_of_ofTokens htokens hroot hread)) hroot
  obtain ⟨hupperValue, hlowerValue, hother⟩ :=
    Value.lookup_of_two hdistinct hlowerDiffer hupperDiffer f.outside f.around
  refine ⟨_, _, if_pos hfits, ?_, hupperValue, hlowerValue, hother⟩
  rw [htext, Value.ofText_eq]
  exact bind_eq_ok_iff.mpr ⟨_, f.ofText_withBlocks hupperText hlowerText, hroot'⟩

end Patch

end Marginalia.Yaml
