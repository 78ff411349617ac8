import Marginalia.Proofs.Yaml.KeyInPlace
import Marginalia.Proofs.Yaml.Word

/-!
# A field with another value

The patcher writes a scalar between the colon and the comment of one line.  The
document then has that value at the path, and its other modules keep theirs,
when the reader finds the value where the patcher looks for it: as one scalar,
or nothing, on the line of the key.
-/

namespace Marginalia.Yaml

open Source (atGap isBlank isBreak)

theorem Scalar.endsLine_of_isNumberWord {w : Text} (h : IsNumberWord w) {c : Char} (hc : c ∈ w) :
    Source.endsLine c = false := by
  rw [Bool.eq_false_iff]
  intro hends
  simp only [Source.endsLine, isBreak, Bool.or_eq_true, beq_iff_eq, or_assoc] at hends
  rcases hends with rfl | rfl | rfl | rfl | rfl <;> exact absurd (h.chars _ hc) (by decide)

namespace Patch

/-- A field whose value the reader finds where the patcher looks for it: as one
scalar, or nothing, on the line of the key, inside mappings without anchors and
tags. -/
structure FieldInPlace (t module path : Text) where
  index : Nat
  line : OutlineLine
  key : KeyLine
  /-- The reader behind the colon of the key. -/
  state : Scan
  /-- The column of the keys of the mapping. -/
  indent : Nat
  /-- What the reader takes for the value. -/
  value : List Token
  located : ∃ range, (Outline.ofText t).locate module path = .ok (range, index)
  keyed : keyLine (Outline.ofText t) index module path = .ok (line, key)
  /-- For the reader, too, the key ends at the colon. -/
  through : Scan.through? (throughKey t index key).length (Scan.start (throughKey t index key)) =
    some state
  opens : atGap (behindKey t index line.line key) = true
  awaits : state.AwaitsValue indent
  /-- The keys on the way are those of the path. -/
  leads : Node.LeadsTo (module :: Outline.segments path) state.tokens.reverse
  /-- The reader takes the white space and the comment around the value for
  such, too. -/
  gap : ∀ c ∈ key.gap, isBlank c = true
  comment : Scan.IsNote key.comment
  /-- The reader goes on below the line. -/
  taken : state.Takes (behindKey t index line.line key)
    (state.below (belowLine t index line.line)) value
  /-- What stands there is no deeper than the key. -/
  shallow : (state.below (belowLine t index line.line)).1.rest = [] ∨
    (state.below (belowLine t index line.line)).1.column ≤ indent
  /-- Nothing is a value only before the next entry or the end. -/
  absent : value = [] → ∀ tokens, Token.ofText t = .ok tokens →
    Node.endsBlockEntry tokens[state.tokens.length]? = true

variable {t module path : Text}

namespace FieldInPlace

variable (f : FieldInPlace t module path)

def toKeyInPlace : KeyInPlace t module path where
  index := f.index
  line := f.line
  key := f.key
  state := f.state
  indent := f.indent
  located := f.located
  keyed := f.keyed
  through := f.through
  opens := f.opens
  awaits := f.awaits
  leads := f.leads
  gap := f.gap
  comment := f.comment

theorem apply_eq (word : Text) :
    (⟨f.line.line.contentSpan, f.key.withValue word⟩ : Edit).apply t =
      f.toKeyInPlace.behind (f.toKeyInPlace.gapText ++ (word ++ (f.key.comment ++
        (f.line.line.terminator.toText ++ Text.joinLines (t.lines.drop (f.index + 1)))))) := by
  have hline : t.lines[f.index]? = some f.line.line := f.toKeyInPlace.getElem?_lines
  rw [Edit.apply_contentSpan_eq_append hline, KeyLine.withValue]
  simp only [List.append_assoc]
  rfl

/-- What is read behind the colon with a word in the place of the value. -/
theorem withLineFeeds_behind {word : Text} (hword : ∀ c ∈ word, Source.endsLine c = false) :
    Source.withLineFeeds (f.toKeyInPlace.gapText ++ (word ++ (f.key.comment ++
        (f.line.line.terminator.toText ++ Text.joinLines (t.lines.drop (f.index + 1)))))) =
      f.toKeyInPlace.gapText ++ (word ++ (f.key.comment ++ belowLine t f.index f.line.line)) := by
  have hgap : ∀ c ∈ f.toKeyInPlace.gapText, Source.endsLine c = false := fun c hc =>
    Scan.endsLine_of_isBlank (f.toKeyInPlace.isBlank_gapText c hc)
  have hcomment := Scan.endsLine_of_isNote f.comment
  rw [Source.withLineFeeds_append_of_endsLine hgap, Source.withLineFeeds_append_of_endsLine hword,
    Source.withLineFeeds_append_of_endsLine hcomment, belowLine]

theorem takes_word {word : Text} (hopens : Scalar.opensBare word = true)
    (hgap : ∀ c ∈ word, Source.isGap c = false) (hcolon : ':' ∉ word)
    (htab : (f.state.below (belowLine t f.index f.line.line)).1.rest.head? ≠ some '\t') :
    f.state.Takes
      (f.toKeyInPlace.gapText ++ (word ++ (f.key.comment ++ belowLine t f.index f.line.line)))
      (f.state.below (belowLine t f.index f.line.line)) [.scalar true word] := by
  have hbelow := isBelow_belowLine f.toKeyInPlace.getElem?_lines
  have htail := Scan.atGap_note_append f.comment hbelow
  have hplace := Scan.samePlace_note f.comment hbelow f.state.cursor.line
    (f.state.cursor.column + f.toKeyInPlace.gapText.length + word.length) f.state.cursor.column
  exact Scan.takes_plain f.awaits f.toKeyInPlace.isBlank_gapText hgap hcolon hopens htail hplace
    f.shallow htab

variable {tokens : List Token} (htokens : Token.ofText t = .ok tokens)

include htokens

/-- With a word in the place of the value the tokens are the same around it. -/
theorem exists_tokens {word : Text} (hopens : Scalar.opensBare word = true)
    (hgap : ∀ c ∈ word, Source.isGap c = false) (hcolon : ':' ∉ word)
    (hline : ∀ c ∈ word, Source.endsLine c = false)
    (hallowed : ∀ c ∈ word, Source.isAllowed c = true) :
    ∃ later, tokens = f.state.tokens.reverse ++ (f.value ++ later) ∧
      Token.ofText ((⟨f.line.line.contentSpan, f.key.withValue word⟩ : Edit).apply t) =
        .ok (f.state.tokens.reverse ++ ([.scalar true word] ++ later)) := by
  have hread := f.toKeyInPlace.finish_behindKey htokens
  have htakes := f.takes_word hopens hgap hcolon (f.taken.head?_ne_tab hread)
  obtain ⟨later, hold, hnew⟩ := Scan.exists_run_of_takes f.awaits.candidate f.awaits.outer f.taken
    htakes (Nat.lt_succ_self _) (Nat.lt_succ_self _) hread
  refine ⟨later.reverse, ?_, ?_⟩
  · rw [← List.reverse_reverse tokens, hold]
    simp
  · rw [f.apply_eq]
    have hparts : ∀ c ∈ f.toKeyInPlace.gapText ++ (word ++ (f.key.comment ++
        (f.line.line.terminator.toText ++ Text.joinLines (t.lines.drop (f.index + 1))))),
          Source.isAllowed c = true := by
      have hall := f.toKeyInPlace.isAllowed_parts htokens
      simp only [List.mem_append] at hall ⊢
      rintro c (hc | hc | hc | hc)
      · exact f.toKeyInPlace.isAllowed_gapText c hc
      · exact hallowed c hc
      · exact hall c (Or.inl hc)
      · exact hall c (Or.inr hc)
    rw [← f.withLineFeeds_behind hline] at hnew
    have hafter := f.toKeyInPlace.ofText_behind htokens hparts
      (by rw [f.withLineFeeds_behind hline]; exact f.toKeyInPlace.atGap_gapText_append _) hnew
    rw [hafter]
    simp

omit htokens in
theorem fillsValue {later : List Token}
    (htokens : Token.ofText t = .ok (f.state.tokens.reverse ++ (f.value ++ later))) :
    Node.FillsValue 1 f.value later := by
  rcases f.taken.eq_nil_or with hnil | ⟨bare, text, hscalar⟩
  · have hends := f.absent hnil _ htokens
    rw [hnil, List.nil_append, ← List.length_reverse, List.getElem?_append_right (Nat.le_refl _),
      Nat.sub_self] at hends
    rw [hnil]
    refine Node.fillsValue_absent ?_
    rw [List.head?_eq_getElem?]
    exact hends
  · rw [hscalar]
    exact Node.fillsValue_word bare text later

end FieldInPlace

/-- With a word in the place of the value, the document is the same around it,
and it has the value that the word spells. -/
theorem FieldInPlace.exists_differAt_word (f : FieldInPlace t module path) {root v : Value}
    {value : Scalar} (hroot : Value.ofText t = .ok root)
    (hword : ∀ quote, IsNumberWord (value.render quote))
    (hvalue : ∀ quote, Value.ofPlain (value.render quote) = .ok v) :
    ∃ e old vs vs', setScalar t module path value = .ok e ∧ root = .map vs ∧
      Value.ofEntries.distinct vs = true ∧
      Value.DifferAt old v (module :: Outline.segments path) vs vs' ∧
      Value.ofText (e.apply t) = .ok (.map vs') := by
  obtain ⟨range, hlocated⟩ := f.located
  let quote := Quote.ofText f.key.value
  have hset : setScalar t module path value =
      .ok ⟨f.line.line.contentSpan, f.key.withValue (value.render quote)⟩ := by
    rw [setScalar]
    refine bind_eq_ok_iff.mpr ⟨_, hlocated, bind_eq_ok_iff.mpr ⟨_, f.keyed, rfl⟩⟩
  rw [Value.ofText_eq] at hroot
  obtain ⟨tokens, htokens, hroot⟩ := bind_eq_ok_iff.mp hroot
  obtain ⟨later, rfl, hnew⟩ := f.exists_tokens htokens
    (Scalar.opensBare_of_isNumberWord (hword quote))
    (fun c => Scalar.isGap_of_isNumberWord (hword quote))
    (Scalar.colon_not_mem_of_isNumberWord (hword quote))
    (fun c => Scalar.endsLine_of_isNumberWord (hword quote))
    fun c => Scalar.isAllowed_of_isNumberWord (hword quote)
  have hmeans : Value.Means (Node.word true (value.render quote)) 0 v :=
    Value.means_word (hvalue quote)
  obtain ⟨old, vs, vs', rfl, hdistinct, hdiffer, hroot'⟩ := Value.exists_ofTokens_of_leadsTo
    f.leads (f.fillsValue htokens) (fun _ => Node.isValue_word true _ later) rfl hmeans
    (Nat.zero_le _) (fun d left hread => ⟨root, Value.ofDocument_of_ofTokens hroot hread⟩) hroot
  refine ⟨_, old, vs, vs', hset, rfl, hdistinct, hdiffer, ?_⟩
  rw [Value.ofText_eq]
  exact bind_eq_ok_iff.mpr ⟨_, hnew, hroot'⟩

/-- With a null, a truth value or an integer in the place of the value, the
document is the same around it. -/
theorem FieldInPlace.exists_differAt (f : FieldInPlace t module path) {root v : Value}
    {value : Scalar} (hroot : Value.ofText t = .ok root) (hvalue : value.IsWord v) :
    ∃ e old vs vs', setScalar t module path value = .ok e ∧ root = .map vs ∧
      Value.ofEntries.distinct vs = true ∧
      Value.DifferAt old v (module :: Outline.segments path) vs vs' ∧
      Value.ofText (e.apply t) = .ok (.map vs') :=
  f.exists_differAt_word hroot (Scalar.isNumberWord_render hvalue) (Scalar.ofPlain_render hvalue)

/-- A null, a truth value or an integer in the place of a value that is one
scalar on its line: the document has that value at the path, and the other
modules keep theirs. -/
theorem exists_ofText_of_fieldInPlace (f : FieldInPlace t module path) {root v : Value}
    {value : Scalar} (hroot : Value.ofText t = .ok root) (hvalue : value.IsWord v) :
    ∃ e root', setScalar t module path value = .ok e ∧ Value.ofText (e.apply t) = .ok root' ∧
      root'.lookup module path = some v ∧
      ∀ other, other ≠ module → root'.get? other = root.get? other := by
  obtain ⟨e, old, vs, vs', hset, rfl, hdistinct, hdiffer, hroot'⟩ :=
    f.exists_differAt hroot hvalue
  refine ⟨e, .map vs', hset, hroot', ?_, ?_⟩
  · rw [Value.distinct_congr hdiffer.map_fst_eq] at hdistinct
    exact hdiffer.foldl_get?_eq hdistinct
  · intro other hother
    exact hdiffer.get?_eq_of_ne hother

/-- A document with a plain scalar and a comment behind a key, and text on both
sides. -/
def commented : Text :=
  "a: 1\nm:\n  j: x\n  k: b c # n\nz: 2\n".toList

def commentedState : Scan where
  cursor := ⟨[], 3, 4⟩
  indents := [2, 0]
  candidate := none
  outer := []
  keyAllowed := false
  tokens := [.value, .scalar true ['k'], .key, .scalar true ['x'], .value, .scalar true ['j'], .key,
    .blockMappingStart, .value, .scalar true ['m'], .key, .scalar true ['1'], .value,
    .scalar true ['a'], .key, .blockMappingStart]

theorem leadsTo_commentedState : Node.LeadsTo [['m'], ['k']] commentedState.tokens.reverse := by
  have hmodule : Value.ofScalar false none true ['m'] = .ok (.str ['m']) := by
    rw [Value.ofScalar_bare, Value.ofPlain_eq_str_iff]
    exact ⟨rfl, by decide, by decide, by decide, rfl, Or.inr (by decide)⟩
  have hkey : Value.ofScalar false none true ['k'] = .ok (.str ['k']) := by
    rw [Value.ofScalar_bare, Value.ofPlain_eq_str_iff]
    exact ⟨rfl, by decide, by decide, by decide, rfl, Or.inr (by decide)⟩
  refine ⟨commentedState.tokens.reverse.tail, Or.inl rfl, ?_⟩
  exact Node.Leads.past_word rfl (Node.Leads.inside hmodule rfl
    (Node.Leads.past_word rfl (Node.Leads.here hkey rfl)))

theorem nonempty_fieldInPlace_commented : Nonempty (FieldInPlace commented ['m'] ['k']) :=
  ⟨{
    index := 3
    line := ⟨⟨3, 15, "  k: b c # n".toList, .lf⟩, 2, .key ['k'] 3⟩
    key := ⟨"  k:".toList, [' '], "b c".toList, " # n".toList⟩
    state := commentedState
    indent := 2
    value := [.scalar true "b c".toList]
    located := ⟨⟨1, 4⟩, by decide +kernel⟩
    keyed := by decide +kernel
    through := by decide +kernel
    opens := by decide +kernel
    awaits := ⟨rfl, rfl, rfl, rfl, rfl, by decide⟩
    leads := leadsTo_commentedState
    gap := by simp [isBlank]
    comment := by
      refine Or.inr ⟨[' '], [' ', 'n'], rfl, by simp, by simp [isBlank], ?_⟩
      simp [Source.endsLine, isBreak]
    taken := by
      refine @Scan.Takes.scalar _ _ _ true _ ⟨"# n\nz: 2\n".toList, 3, 9⟩ false ?_ (Or.inl ?_)
      · decide +kernel
      · decide +kernel
    shallow := by decide +kernel
    absent := by simp }⟩

theorem exists_ofText_of_fieldInPlace_commented :
    ∃ e root', setScalar commented ['m'] ['k'] (.bool true) = .ok e ∧
      e.apply commented = "a: 1\nm:\n  j: x\n  k: true # n\nz: 2\n".toList ∧
      Value.ofText (e.apply commented) = .ok root' ∧
      root'.lookup ['m'] ['k'] = some (.bool true) := by
  obtain ⟨f⟩ := nonempty_fieldInPlace_commented
  obtain ⟨root, hroot⟩ : ∃ root, Value.ofText commented = .ok root :=
    isSome_toOption_iff.mp (by decide +kernel)
  obtain ⟨e, root', hset, hnew, hlookup, -⟩ :=
    exists_ofText_of_fieldInPlace f hroot (Scalar.IsWord.bool true)
  have htext : (setScalar commented ['m'] ['k'] (.bool true)).map (·.apply commented) =
      .ok "a: 1\nm:\n  j: x\n  k: true # n\nz: 2\n".toList := by decide +kernel
  rw [hset] at htext
  exact ⟨e, root', hset, Except.ok.inj htext, hnew, hlookup⟩

/-- A plain scalar that goes on below the line of its key: the word is written
before the rest of it and is read together with that. -/
theorem lookup_ne_of_scalar_on_two_lines :
    let t := "m:\n  k: a\n    b\n".toList
    let read (t : Text) : Option Scalar :=
      ((Value.ofText t).toOption.bind (·.lookup ['m'] ['k'])).bind Scalar.ofValue?
    read t = some (.str "a b".toList) ∧
      ∃ e, setScalar t ['m'] ['k'] (.bool true) = .ok e ∧
        e.apply t = "m:\n  k: true\n    b\n".toList ∧
        read (e.apply t) = some (.str "true b".toList) ∧
        ∀ root', Value.ofText (e.apply t) = .ok root' →
          root'.lookup ['m'] ['k'] ≠ some (.bool true) := by
  intro t read
  have hread : read "m:\n  k: true\n    b\n".toList = some (.str "true b".toList) := by
    decide +kernel
  have hset : setScalar t ['m'] ['k'] (.bool true) = .ok ⟨⟨3, 9⟩, "  k: true".toList⟩ := by
    decide +kernel
  have happly : (⟨⟨3, 9⟩, "  k: true".toList⟩ : Edit).apply t =
      "m:\n  k: true\n    b\n".toList := by
    decide +kernel
  refine ⟨by decide +kernel, _, hset, happly, ?_, ?_⟩
  · rw [happly]
    exact hread
  · intro root' hroot' hlookup
    rw [happly] at hroot'
    have hbool : read "m:\n  k: true\n    b\n".toList = some (.bool true) := by
      simp only [read, hroot', Except.toOption, Option.bind_some, hlookup]
      rfl
    rw [hread] at hbool
    cases hbool

end Patch

end Marginalia.Yaml
