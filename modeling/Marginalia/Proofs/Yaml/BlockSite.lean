import Marginalia.Proofs.Yaml.Blocks
import Marginalia.Proofs.Yaml.BlockText
import Marginalia.Proofs.Yaml.KeyInPlace

/-!
# A block below its key

What the patcher writes behind the colon of a key is read as the block that is
written, and the reader goes on with the text beneath as it would at the start
of a line below the key.  What stood there before and how the reader came to the
key do not matter.
-/

namespace Marginalia.Yaml

open Source (atGap isBlank hang isInline withLineFeeds)

namespace Patch

/-- The reader behind the colon of a key, and the body that the patcher finds
below. -/
structure BlockSite (t : Text) (kind : BodyKind) where
  index : Nat
  line : OutlineLine
  key : KeyLine
  /-- The reader behind the colon of the key. -/
  state : Scan
  /-- The column of the keys of the mapping. -/
  indent : Nat
  body : Body
  lineAt : (Outline.ofText t)[index]? = some line
  parts : KeyLine.ofLine? line = some key
  found : ∃ stop, index < stop ∧ (Outline.ofText t).body index stop kind = body
  awaits : state.AwaitsValue indent
  /-- The reader takes the white space and the comment around the value for
  such, too. -/
  gap : ∀ c ∈ key.gap, isBlank c = true
  comment : Scan.IsNote key.comment
  /-- The block stands as deep as the key allows. -/
  deep : kind.Admits indent body.indent
  /-- The reader finds nothing above the body. -/
  quiet : (Scan.skipGap false false false 0 0
    (withLineFeeds (aboveBody t index line.line body))).1.rest = []

namespace BlockSite

variable {t : Text} {kind : BodyKind} (f : BlockSite t kind)

def above : Text :=
  aboveBody t f.index f.line.line f.body

theorem isBelow_above : Scan.IsBelow (withLineFeeds f.above) := by
  obtain ⟨stop, -, hbody⟩ := f.found
  rcases aboveBody_cases f.lineAt hbody with ⟨hnil, -⟩ | ⟨hterminator, -⟩
  · rw [above, hnil]
    exact Or.inl rfl
  · exact isBelow_terminator hterminator _

/-- The text around the block may stand in a document. -/
theorem isAllowed_around (h : ∀ c ∈ t, Source.isAllowed c = true) :
    (∀ c ∈ f.key.head, Source.isAllowed c = true) ∧
      (∀ c ∈ f.key.comment, Source.isAllowed c = true) ∧
      (∀ c ∈ f.above, Source.isAllowed c = true) ∧
      ∀ c ∈ beneathBody t f.body, Source.isAllowed c = true := by
  obtain ⟨stop, -, hbody⟩ := f.found
  have hline := (Outline.getElem?_ofText f.lineAt).1
  obtain ⟨-, rest, -, hcontent, hcomment⟩ := KeyLine.exists_head f.lineAt f.parts
  have hmem : ∀ c ∈ f.line.line.content, Source.isAllowed c = true := by
    intro c hc
    refine h c ?_
    rw [← Text.joinLines_take_append_line hline]
    simp [hc]
  have haround := fun c => @mem_of_mem_around t f.index _ hline f.body (lt_start_of_body hbody) c
  rw [hcontent] at hmem
  exact ⟨fun c hc => hmem c (List.mem_append_left _ hc),
    fun c hc => hmem c (List.mem_append_right _ (hcomment.subset hc)),
    fun c hc => h c (haround c (Or.inl hc)), fun c hc => h c (haround c (Or.inr hc))⟩

/-- The text down to a line feed above the body is a gap. -/
theorem quiet_of_read {x : Text}
    (h : x = [] ∧ withLineFeeds f.above = [] ∨ withLineFeeds f.above = x ++ ['\n']) :
    Scan.IsBelow (x ++ ['\n']) ∧
      (Scan.skipGap false false false 0 0 (x ++ ['\n'])).1.rest = [] := by
  rcases h with ⟨rfl, -⟩ | h
  · exact ⟨Or.inr ⟨[], rfl⟩, rfl⟩
  · rw [← h]
    exact ⟨f.isBelow_above, f.quiet⟩

theorem exists_append_eq (x : Text) : ∃ is, f.state.indents = f.indent :: is ∧
    f.state.append x = Scan.inBlock ⟨x, f.state.cursor.line, f.state.cursor.column⟩ (f.indent :: is)
      false f.state.tokens := by
  obtain ⟨is, his⟩ := List.head?_eq_some_iff.mp f.awaits.indent_eq
  refine ⟨is, his, ?_⟩
  rw [← his]
  simp [Scan.append, Scan.inBlock, Cursor.append, f.awaits.rest, f.awaits.candidate, f.awaits.outer,
    f.awaits.keyAllowed]

/-- What the patcher writes behind the colon: the lines `text` in the place of
the body, and the text `beneath` below them. -/
def written (b : ReadBlock kind) (text beneath : Text) : Text :=
  (if b.lines.isEmpty then f.key.gapText ++ (kind.empty ++ f.key.comment) else f.key.comment) ++
    (f.above ++ (text ++ beneath))

/-- What the reader makes of the text `beneath`, behind some tokens. -/
def goesOn (beneath : Text) (tokens : List Token) : Except Error (List Token) :=
  (Scan.inBlock ⟨withLineFeeds beneath, 0, 0⟩ f.state.indents true []).finish.map (· ++ tokens)

section Beneath

variable {b : ReadBlock kind} {text beneath tail : Text}

theorem finish_tail (h : tail = [] ∧ beneath = [] ∨ tail = '\n' :: withLineFeeds beneath)
    (line column : Nat) (tokens : List Token) :
    (Scan.inBlock ⟨tail, line, column⟩ f.state.indents false tokens).finish =
      f.goesOn beneath tokens := by
  have hbeneath : tail = [] ∧ withLineFeeds beneath = [] ∨
      tail = '\n' :: withLineFeeds beneath := by
    refine h.imp_left fun hnil => ⟨hnil.1, ?_⟩
    rw [hnil.2]
    rfl
  exact Scan.finish_beneath hbeneath

theorem follows_tail (hfollows : Scan.Follows f.indent ('\n' :: withLineFeeds beneath))
    (h : tail = [] ∧ beneath = [] ∨ tail = '\n' :: withLineFeeds beneath) :
    Scan.Follows f.indent tail := by
  rcases h with ⟨rfl, -⟩ | rfl
  · exact Scan.follows_nil f.indent
  · exact hfollows

theorem finish_lines (hne : b.lines ≠ []) {x : Text}
    (habove : x = [] ∧ withLineFeeds f.above = [] ∨ withLineFeeds f.above = x ++ ['\n'])
    (hfollows : Scan.Follows f.indent ('\n' :: withLineFeeds beneath))
    (htail : tail = [] ∧ beneath = [] ∨ tail = '\n' :: withLineFeeds beneath) :
    (f.state.append (f.key.comment ++ (x ++ hang f.body.indent b.lines tail))).finish =
      f.goesOn beneath ((b.tokens (decide (f.indent < f.body.indent))).reverse ++
        f.state.tokens) := by
  obtain ⟨hbelow, hquiet⟩ := f.quiet_of_read habove
  obtain ⟨l, ls, hlines⟩ := List.exists_cons_of_ne_nil hne
  obtain ⟨is, his, hstate⟩ :=
    f.exists_append_eq (f.key.comment ++ (x ++ hang f.body.indent b.lines tail))
  obtain ⟨line, -, hplace⟩ := Scan.exists_samePlace_above f.comment hbelow hquiet
    f.state.cursor.line f.state.cursor.column
    (List.replicate f.body.indent ' ' ++ (l ++ hang f.body.indent ls tail))
  rw [← Source.hang_cons, ← hlines] at hplace
  obtain ⟨line', column', hblock⟩ := b.taken hne f.indent f.body.indent is false tail line 0
    f.state.tokens f.deep (f.follows_tail hfollows htail)
  have hgap : (f.state.append (f.key.comment ++
      (x ++ hang f.body.indent b.lines tail))).finish =
        (Scan.inBlock ⟨hang f.body.indent b.lines tail, line, 0⟩ (f.indent :: is)
          false f.state.tokens).finish := by
    rw [hstate]
    exact Scan.finish_inBlock_of_samePlace hplace
  rw [hgap, hblock, ← his, f.finish_tail htail]

theorem atGap_lines (hne : b.lines ≠ []) {x : Text}
    (habove : x = [] ∧ withLineFeeds f.above = [] ∨ withLineFeeds f.above = x ++ ['\n'])
    (tail : Text) : atGap (f.key.comment ++ (x ++ hang f.body.indent b.lines tail)) = true := by
  obtain ⟨l, ls, hlines⟩ := List.exists_cons_of_ne_nil hne
  rw [hlines, Source.hang_cons]
  exact Scan.atGap_note_append f.comment ((f.quiet_of_read habove).1.append_lineFeed _)

/-- Without a body the comment of the key leads to what stands beneath. -/
theorem exists_samePlace_beneath (hnone : beneathBody t f.body = [] → beneath = [])
    (line column : Nat) :
    ∃ tail line', line ≤ line' ∧ (tail = [] ∧ beneath = [] ∨ tail = '\n' :: withLineFeeds beneath) ∧
      Scan.SamePlace
        (Scan.skipGap false false false line column
          (f.key.comment ++ withLineFeeds (f.above ++ beneath)))
        (Scan.skipGap false false false line' 0 tail) := by
  obtain ⟨stop, -, hbody⟩ := f.found
  rcases exists_read_aboveBody f.lineAt hbody with ⟨habove, -, hbeneath⟩ | ⟨-, x, hread, hx⟩
  · refine ⟨[], line, Nat.le_refl line, Or.inl ⟨rfl, hnone hbeneath⟩, ?_⟩
    rw [above, habove, hnone hbeneath]
    exact Scan.samePlace_note f.comment (Or.inl rfl) line column 0
  · obtain ⟨hbelow, hquiet⟩ := f.quiet_of_read (Or.inr hread)
    obtain ⟨line', hle, hplace⟩ := Scan.exists_samePlace_above f.comment hbelow hquiet line column
      (withLineFeeds beneath)
    refine ⟨_, line', hle, Or.inr rfl, ?_⟩
    rw [above, hx]
    exact hplace

/-- A block without lines behind the colon of the key, as it is read. -/
theorem finish_noLines (hnone : beneathBody t f.body = [] → beneath = [])
    (hfollows : Scan.Follows f.indent ('\n' :: withLineFeeds beneath)) :
    (f.state.append (f.key.gapText ++ (kind.empty ++ (f.key.comment ++
      withLineFeeds (f.above ++ beneath))))).finish =
      f.goesOn beneath (kind.emptyTokens.reverse ++ f.state.tokens) := by
  let line := f.state.cursor.line
  let column := f.state.cursor.column + f.key.gapText.length
  let rest := f.key.comment ++ withLineFeeds (f.above ++ beneath)
  obtain ⟨is, his, hstate⟩ := f.exists_append_eq (f.key.gapText ++ (kind.empty ++ rest))
  obtain ⟨tail, line', hle, htail, hplace⟩ := f.exists_samePlace_beneath hnone line (column + 2)
  have hcolumn : f.indent < column := Nat.lt_add_right _ f.awaits.indent_lt
  have hblanks : (Scan.inBlock ⟨f.key.gapText ++ (kind.empty ++ rest), line,
      f.state.cursor.column⟩ (f.indent :: is) false f.state.tokens).finish =
        (Scan.inBlock ⟨kind.empty ++ rest, line, column⟩ (f.indent :: is) false
          f.state.tokens).finish :=
    Scan.finish_inBlock_of_skipGap (Scan.skipGap_blanks (KeyLine.isBlank_gapText f.gap) _)
  -- what follows the block stands on another line
  have hover : line < (Scan.skipGap false false false line (column + 2) rest).1.line ∨
      (Scan.skipGap false false false line (column + 2) rest).1.rest = [] := by
    rcases hplace with hsame | ⟨hnil, -⟩
    · rw [hsame]
      exact ((f.follows_tail hfollows htail).shallow line' 0).symm.imp_left fun h =>
        Nat.lt_of_le_of_lt hle h.1
    · exact Or.inr hnil
  have hgap : (Scan.inBlock ⟨rest, line, column + 2⟩ (f.indent :: is) false
      (kind.emptyTokens.reverse ++ f.state.tokens)).finish =
        (Scan.inBlock ⟨tail, line', 0⟩ (f.indent :: is) false
          (kind.emptyTokens.reverse ++ f.state.tokens)).finish :=
    Scan.finish_inBlock_of_samePlace hplace
  rw [hstate, hblanks, Scan.finish_empty kind hcolumn hover, hgap, ← his, f.finish_tail htail]

/-- What the patcher writes is read as the block, and the reader goes on
beneath. -/
theorem finish_written (htext : IsBodyText t f.line f.body b.lines text)
    (hnone : beneathBody t f.body = [] → beneath = [])
    (hfollows : Scan.Follows f.indent ('\n' :: withLineFeeds beneath)) :
    atGap (withLineFeeds (f.written b text beneath)) = true ∧
      (f.state.append (withLineFeeds (f.written b text beneath))).finish =
        f.goesOn beneath ((b.written (decide (f.indent < f.body.indent))).reverse ++
          f.state.tokens) := by
  obtain ⟨stop, -, hbody⟩ := f.found
  have hcomment := Scan.endsLine_of_isNote f.comment
  by_cases hne : b.lines = []
  · have hempty : b.lines.isEmpty = true := by rw [hne]; rfl
    have hnil : text = [] := by
      cases htext with
      | none h => rfl
      | below h => exact absurd hne h
      | block h => exact absurd hne h
    have hgap : ∀ c ∈ f.key.gapText, Source.endsLine c = false := fun c hc =>
      Scan.endsLine_of_isBlank (KeyLine.isBlank_gapText f.gap c hc)
    have hflow : ∀ c ∈ kind.empty, Source.endsLine c = false := by
      cases kind <;> exact List.forall_mem_cons.mpr ⟨rfl, by simp [Source.endsLine, Source.isBreak]⟩
    have hread : withLineFeeds (f.written b text beneath) =
        f.key.gapText ++ (kind.empty ++ (f.key.comment ++ withLineFeeds (f.above ++ beneath))) := by
      rw [written, hempty, if_pos rfl, hnil, List.append_assoc, List.append_assoc,
        Source.withLineFeeds_append_of_endsLine hgap, Source.withLineFeeds_append_of_endsLine hflow,
        Source.withLineFeeds_append_of_endsLine hcomment]
      rfl
    rw [hread, ReadBlock.written, hempty, if_pos rfl]
    exact ⟨KeyLine.atGap_gapText_append f.gap _, f.finish_noLines hnone hfollows⟩
  · have hempty : b.lines.isEmpty = false := by simpa using hne
    obtain ⟨x, tail, hx, htail, hblock⟩ :=
      exists_read_block f.lineAt hbody htext hne b.inline hnone
    have hread : withLineFeeds (f.written b text beneath) =
        f.key.comment ++ (x ++ hang f.body.indent b.lines tail) := by
      rw [written, hempty, if_neg Bool.false_ne_true,
        Source.withLineFeeds_append_of_endsLine hcomment, above, hblock]
    rw [hread, ReadBlock.written, hempty, if_neg Bool.false_ne_true]
    exact ⟨f.atGap_lines hne hx tail, f.finish_lines hne hx hfollows htail⟩

theorem isAllowed_written (htext : IsBodyText t f.line f.body b.lines text)
    (hcomment : ∀ c ∈ f.key.comment, Source.isAllowed c = true)
    (habove : ∀ c ∈ f.above, Source.isAllowed c = true)
    (hbeneath : ∀ c ∈ beneath, Source.isAllowed c = true) :
    ∀ c ∈ f.written b text beneath, Source.isAllowed c = true := by
  have hflow : ∀ c ∈ kind.empty, Source.isAllowed c = true := by
    cases kind <;> exact List.all_eq_true.mp rfl
  have hhead : ∀ c ∈ if b.lines.isEmpty then f.key.gapText ++ (kind.empty ++ f.key.comment)
      else f.key.comment, Source.isAllowed c = true := by
    split
    · simp only [List.mem_append]
      rintro c (hc | hc | hc)
      · exact KeyLine.isAllowed_gapText f.gap c hc
      · exact hflow c hc
      · exact hcomment c hc
    · exact hcomment
  simp only [written, List.mem_append]
  rintro c (hc | hc | hc | hc)
  · exact hhead c hc
  · exact habove c hc
  · exact htext.isAllowed b.inline c hc
  · exact hbeneath c hc

end Beneath

end BlockSite

end Patch

end Marginalia.Yaml
