import Marginalia.Proofs.Yaml.KeyLine
import Marginalia.Proofs.Yaml.Patch
import Marginalia.Proofs.Yaml.PathValue
import Marginalia.Proofs.Yaml.Surroundings

/-!
# A key whose value is changed in place

The patcher finds the line of a key and cuts it behind the colon.  `KeyInPlace`
says that the reader of the document comes by there, too, through block mappings
with the keys of the path, so that a change behind the colon changes the value
of that key.  A mapping with an anchor or a tag on the way is left out.
-/

namespace Marginalia.Yaml

open Source (atGap isBlank isBreak)

namespace KeyLine

theorem exists_head {t : Text} {i : Nat} {l : OutlineLine} {k : KeyLine}
    (hline : (Outline.ofText t)[i]? = some l) (hk : ofLine? l = some k) :
    ∃ front rest, k.head = front ++ [':'] ∧ l.line.content = k.head ++ rest ∧
      k.comment <:+ rest := by
  obtain ⟨-, hof⟩ := Outline.getElem?_ofText hline
  obtain ⟨name, colon, hkind⟩ := exists_kind_eq_key hk
  have hkind' := hkind
  rw [hof] at hkind'
  obtain ⟨front, rest, hcontent, -, rfl, -⟩ := OutlineLine.exists_of_kind_eq_key hkind'
  obtain rfl := Option.some.inj (hk.symm.trans (ofLine?_eq_cut hcontent hkind))
  refine ⟨front, rest, rfl, ?_, Scalar.suffix_snd_splitComment rest⟩
  rw [hcontent, cut, List.append_assoc]
  rfl

/-- Behind the colon of a key a text is read by itself. -/
theorem withLineFeeds_head_append {t : Text} {i : Nat} {l : OutlineLine} {k : KeyLine}
    (hline : (Outline.ofText t)[i]? = some l) (hk : ofLine? l = some k) (above x : Text) :
    Source.withLineFeeds (above ++ (k.head ++ x)) =
      Source.withLineFeeds (above ++ k.head) ++ Source.withLineFeeds x := by
  obtain ⟨front, -, hhead, -⟩ := exists_head hline hk
  rw [hhead]
  simpa using Source.withLineFeeds_append_colon (above ++ front) x

def gapText (k : KeyLine) : Text :=
  if k.gap.isEmpty then [' '] else k.gap

section Gap

variable {k : KeyLine} (hgap : ∀ c ∈ k.gap, isBlank c = true)

include hgap

theorem isBlank_gapText : ∀ c ∈ k.gapText, isBlank c = true := by
  unfold gapText
  split
  · simp [isBlank]
  · exact hgap

theorem atGap_gapText_append (x : Text) : atGap (k.gapText ++ x) = true := by
  have hne : k.gapText ≠ [] := by
    unfold gapText
    split
    · simp
    · next h => simpa using h
  obtain ⟨c, r, hcons⟩ := List.exists_cons_of_ne_nil hne
  have hc := isBlank_gapText hgap c (by simp [hcons])
  simp [hcons, atGap, Source.isGap, hc]

theorem isAllowed_gapText : ∀ c ∈ k.gapText, Source.isAllowed c = true := by
  intro c hc
  have hblank := isBlank_gapText hgap c hc
  rw [isBlank, Bool.or_eq_true, beq_iff_eq, beq_iff_eq] at hblank
  rcases hblank with rfl | rfl <;> decide

end Gap

end KeyLine

theorem Token.isAllowed_of_ofText {t : Text} {tokens : List Token}
    (h : Token.ofText t = .ok tokens) : ∀ c ∈ t, Source.isAllowed c = true := by
  obtain ⟨source, hsource, -⟩ := bind_eq_ok_iff.mp h
  exact (Source.ofText_eq_ok_iff.mp hsource).1

namespace Patch

/-- The text through the colon of the key on line `i`, as it is read. -/
def throughKey (t : Text) (i : Nat) (k : KeyLine) : Text :=
  Source.withLineFeeds (Text.joinLines (t.lines.take i) ++ k.head)

/-- The text below line `i`, with the ending of the line, as it is read. -/
def belowLine (t : Text) (i : Nat) (l : Line) : Text :=
  Source.withLineFeeds (l.terminator.toText ++ Text.joinLines (t.lines.drop (i + 1)))

/-- The text behind the colon of the key on line `i`, as it is read. -/
def behindKey (t : Text) (i : Nat) (l : Line) (k : KeyLine) : Text :=
  Source.withLineFeeds (l.content.drop k.head.length ++
    (l.terminator.toText ++ Text.joinLines (t.lines.drop (i + 1))))

/-- A key that the reader finds where the patcher does: behind the colon it
awaits the value at the path, and no mapping on the way has an anchor or a
tag. -/
structure KeyInPlace (t module path : Text) where
  index : Nat
  line : OutlineLine
  key : KeyLine
  /-- The reader behind the colon of the key. -/
  state : Scan
  /-- The column of the keys of the mapping. -/
  indent : Nat
  located : ∃ range, (Outline.ofText t).locate module path = .ok (range, index)
  keyed : keyLine (Outline.ofText t) index module path = .ok (line, key)
  /-- For the reader, too, the key ends at the colon. -/
  through : Scan.through? (throughKey t index key).length (Scan.start (throughKey t index key)) =
    some state
  opens : atGap (behindKey t index line.line key) = true
  awaits : state.AwaitsValue indent
  /-- The keys on the way are those of the path, in mappings without anchors and
  tags. -/
  leads : Node.LeadsTo (module :: Outline.segments path) state.tokens.reverse
  /-- The reader takes the white space and the comment around the value for
  such, too. -/
  gap : ∀ c ∈ key.gap, isBlank c = true
  comment : Scan.IsNote key.comment

variable {t module path : Text}

/-- A line ending is read as a line feed. -/
theorem isBelow_terminator {e : Terminator} (he : e ≠ .none) (x : Text) :
    Scan.IsBelow (Source.withLineFeeds (e.toText ++ x)) := by
  right
  cases e with
  | none => exact absurd rfl he
  | lf => exact ⟨_, Source.withLineFeeds_cons (by decide) (by decide) x⟩
  | crlf => exact ⟨_, rfl⟩

theorem isBelow_belowLine {i : Nat} {l : Line} (hl : t.lines[i]? = some l) :
    Scan.IsBelow (belowLine t i l) := by
  by_cases hterminator : l.terminator = .none
  · have hlast := Text.drop_lines_of_terminator_eq_none hl hterminator
    left
    rw [belowLine, hlast, hterminator]
    rfl
  · exact isBelow_terminator hterminator _

namespace KeyInPlace

variable (f : KeyInPlace t module path)

def gapText : Text :=
  f.key.gapText

theorem isBlank_gapText : ∀ c ∈ f.gapText, isBlank c = true :=
  KeyLine.isBlank_gapText f.gap

theorem atGap_gapText_append (x : Text) : atGap (f.gapText ++ x) = true :=
  KeyLine.atGap_gapText_append f.gap x

theorem getElem?_lines : t.lines[f.index]? = some f.line.line := by
  obtain ⟨hline, -⟩ := keyLine_eq_ok_iff.mp f.keyed
  exact (Outline.getElem?_ofText hline).1

theorem exists_head : ∃ front rest, f.key.head = front ++ [':'] ∧
    f.line.line.content = f.key.head ++ rest ∧ f.key.comment <:+ rest := by
  obtain ⟨hline, hkey⟩ := keyLine_eq_ok_iff.mp f.keyed
  exact KeyLine.exists_head hline hkey

/-- The text with `x` behind the colon of the key. -/
def behind (x : Text) : Text :=
  Text.joinLines (t.lines.take f.index) ++ (f.key.head ++ x)

theorem behind_drop : f.behind (f.line.line.content.drop f.key.head.length ++
    (f.line.line.terminator.toText ++ Text.joinLines (t.lines.drop (f.index + 1)))) = t := by
  obtain ⟨-, rest, -, hcontent, -⟩ := f.exists_head
  have hline := Text.joinLines_take_append_line f.getElem?_lines
  have hdrop : f.line.line.content.drop f.key.head.length = rest := by
    rw [hcontent, List.drop_left]
  rw [behind, hdrop, ← List.append_assoc f.key.head, ← hcontent]
  exact hline

theorem withLineFeeds_behind (x : Text) :
    Source.withLineFeeds (f.behind x) = throughKey t f.index f.key ++ Source.withLineFeeds x := by
  obtain ⟨hline, hkey⟩ := keyLine_eq_ok_iff.mp f.keyed
  exact KeyLine.withLineFeeds_head_append hline hkey _ x

/-- The tokens of the text with `x` behind the colon are those that the reader
finds there. -/
theorem finish_start_behind {x : Text} (hx : atGap (Source.withLineFeeds x) = true) :
    (Scan.start (Source.withLineFeeds (f.behind x))).finish =
      (f.state.append (Source.withLineFeeds x)).finish := by
  rw [f.withLineFeeds_behind, ← Scan.finish_append_of_through f.through hx]
  rfl

section Tokens

variable {tokens : List Token} (htokens : Token.ofText t = .ok tokens)

include htokens

theorem finish_behindKey :
    (f.state.append (behindKey t f.index f.line.line f.key)).finish = .ok tokens.reverse := by
  obtain ⟨source, hsource, hread⟩ := bind_eq_ok_iff.mp htokens
  obtain ⟨-, rfl⟩ := Source.ofText_eq_ok_iff.mp hsource
  obtain ⟨read, hrun, hreverse⟩ := bind_eq_ok_iff.mp hread
  obtain rfl := Except.ok.inj hreverse
  have hfinish := f.finish_start_behind f.opens
  rw [f.behind_drop] at hfinish
  rw [List.reverse_reverse]
  exact hfinish.symm.trans hrun

theorem ofText_behind {x : Text} (hallowed : ∀ c ∈ x, Source.isAllowed c = true)
    (hx : atGap (Source.withLineFeeds x) = true) {read : List Token}
    (hread : (f.state.append (Source.withLineFeeds x)).finish = .ok read) :
    Token.ofText (f.behind x) = .ok read.reverse := by
  have hall := Token.isAllowed_of_ofText htokens
  have hsource : Source.ofText (f.behind x) = .ok (Source.withLineFeeds (f.behind x)) := by
    refine Source.ofText_eq_ok_iff.mpr ⟨?_, rfl⟩
    rw [← f.behind_drop] at hall
    simp only [behind, List.mem_append] at hall ⊢
    rintro c (hc | hc | hc)
    · exact hall c (Or.inl hc)
    · exact hall c (Or.inr (Or.inl hc))
    · exact hallowed c hc
  rw [Token.ofText, hsource]
  have hrun := (f.finish_start_behind hx).trans hread
  exact bind_eq_ok_iff.mpr ⟨_, rfl, bind_eq_ok_iff.mpr ⟨_, hrun, rfl⟩⟩

/-- What stands around the value may stand in a document. -/
theorem isAllowed_parts : ∀ c ∈ f.key.comment ++
    (f.line.line.terminator.toText ++ Text.joinLines (t.lines.drop (f.index + 1))),
      Source.isAllowed c = true := by
  obtain ⟨-, rest, -, hcontent, hcomment⟩ := f.exists_head
  have hall := Token.isAllowed_of_ofText htokens
  have hdrop : f.line.line.content.drop f.key.head.length = rest := by
    rw [hcontent, List.drop_left]
  rw [← f.behind_drop, hdrop, behind] at hall
  simp only [List.mem_append] at hall ⊢
  rintro c (hc | hc)
  · exact hall c (Or.inr (Or.inr (Or.inl (hcomment.subset hc))))
  · exact hall c (Or.inr (Or.inr (Or.inr hc)))

end Tokens

theorem isAllowed_gapText : ∀ c ∈ f.gapText, Source.isAllowed c = true :=
  KeyLine.isAllowed_gapText f.gap

end KeyInPlace

end Patch

end Marginalia.Yaml
