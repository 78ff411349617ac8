import Marginalia.Proofs.Yaml.Comment
import Marginalia.Proofs.Yaml.FieldText

/-!
# Setting a field twice

A field that is set to the value that it was just set to stays as it is, unless
white space at an end of a bare string is taken for the space around it.  A bare
string has no space and no control character, but it may have white space of
another kind: at its start that joins the gap before the value, and at its end
the comment behind it, so each time the field is set it is written once more.
-/

namespace Marginalia

namespace CharClass

theorem isWhite_eq_false_of_isWordChar {c : Char} (h : isWordChar c = true) :
    isWhite c = false := by
  simp only [isWordChar, Char.isAlphanum, Bool.or_eq_true, beq_iff_eq, isAlpha_iff, isDigit_iff]
    at h
  rcases h with (rfl | rfl) | hchar
  · decide
  · decide
  · simp [isWhite, inRanges, whiteRanges, Range.holds]
    omega

end CharClass

open CharClass

namespace Yaml

namespace Scalar

/-! ## A written value is written again -/

theorem bare_of_isNumberWord {w : Text} (h : IsNumberWord w) : Text.Bare w :=
  ⟨fun c hc => isWhite_eq_false_of_isWordChar (h.chars c (List.mem_of_mem_head? hc)),
    fun c hc => isWhite_eq_false_of_isWordChar (h.chars c (List.mem_of_mem_getLast? hc))⟩

theorem bare_doubleQuoted (s : Text) : Text.Bare (doubleQuoted s) := by
  have hmark : isWhite '"' = false := by decide
  simp [Text.Bare, doubleQuoted, List.getLast?_cons, hmark]

theorem bare_singleQuoted (s : Text) : Text.Bare (singleQuoted s) := by
  have hmark : isWhite '\'' = false := by decide
  unfold singleQuoted
  split
  · exact bare_doubleQuoted s
  · simp [Text.Bare, List.getLast?_cons, hmark]

theorem ofText_eq_plain {t : Text} (h : ∀ c ∈ t, c ≠ '"' ∧ c ≠ '\'') :
    Quote.ofText t = .plain := by
  have hmem : ∀ c ∈ Text.trimStart t, c ∈ t := fun c hc =>
    (List.dropWhile_sublist isWhite).subset hc
  unfold Quote.ofText
  split
  · next r hr => exact absurd rfl (h '"' (hmem _ (by simp [hr]))).1
  · next r hr => exact absurd rfl (h '\'' (hmem _ (by simp [hr]))).2
  · rfl

theorem render_ofText_trim_render (quote : Quote) (value : Scalar) :
    value.render (Quote.ofText (Text.trim (value.render quote))) = value.render quote := by
  rcases render_cases quote value with
    ⟨-, hsame⟩ | ⟨s, rfl, hdouble | ⟨-, hsingle⟩ | ⟨hwritten, hbare⟩⟩
  · exact hsame _
  · rw [hdouble, Text.trim_of_bare (bare_doubleQuoted s)]
    rfl
  · rw [hsingle, Text.trim_of_bare (bare_singleQuoted s)]
    by_cases hcontrol : s.any isControl = true
    · rw [singleQuoted, if_pos hcontrol]
      rfl
    · have hquote : Quote.ofText (singleQuoted s) = .single := by
        rw [singleQuoted, if_neg hcontrol]
        rfl
      rw [hquote]
      rfl
  · have hquote : Quote.ofText (Text.trim s) = .plain := by
      apply ofText_eq_plain
      intro c hc
      obtain ⟨hdouble, hsingle, -⟩ :=
        quotes_not_mem_of_needsQuotes_eq_false hbare (Text.mem_of_mem_trim hc)
      exact ⟨hdouble, hsingle⟩
    rw [hwritten, hquote, render, if_neg (by simp [hbare])]

end Scalar

namespace KeyLine

/-! ## The line that was written -/

/-- A word that the line of a key keeps apart from the space around it: it has
no white space at its start, and none at its end when a comment follows.  A word
of white space is taken for none at all, so the line has to look like one
without a value. -/
def Settles (k : KeyLine) (word : Text) : Prop :=
  if Text.isBlank word = true then k.comment = [] ∧ k.gapText = [' ']
  else (∀ c ∈ word.head?, isWhite c = false) ∧
    (k.comment = [] ∨ ∀ c ∈ word.getLast?, isWhite c = false)

theorem settles_of_bare {k : KeyLine} {word : Text} (h : Text.Bare word) (hne : word ≠ []) :
    k.Settles word := by
  have hblank : Text.isBlank word = false := by
    rw [Text.isBlank, List.all_eq_false]
    obtain ⟨c, r, rfl⟩ := List.exists_cons_of_ne_nil hne
    exact ⟨c, by simp, by simpa using h.1 c rfl⟩
  rw [Settles, if_neg (by simp [hblank])]
  exact ⟨h.1, Or.inr h.2⟩

section Cut

variable {k : KeyLine} {word : Text} {w : Bool}
  (hwhite : ∀ c ∈ k.gapText, isWhite c = true) (hcomment : Scalar.IsComment k.comment)
  (hword : Scalar.Crosses (.outside true) word (.outside w))

include hwhite hcomment hword

theorem cut_written (head : Text) : cut head (k.gapText ++ word ++ k.comment) =
    { head
      gap := (Text.trimEnd (k.gapText ++ word)).takeWhile isWhite
      value := Text.trim word
      comment := if k.comment = [] then [] else
        Text.endWhite (k.gapText ++ word) ++ k.comment } := by
  have hcrosses : Scalar.Crosses .start (k.gapText ++ word) (.outside w) :=
    (Scalar.crosses_white hwhite (Or.inl k.gapText_ne_nil)).append hword
  rw [cut, Scalar.splitComment_append hcrosses hcomment]
  simp only [Text.trimStart_trimEnd, Text.trim_append_of_white hwhite]

/-- A word of white space is not seen: the line is cut like one without a
value. -/
theorem cut_written_of_isBlank (head : Text) (h : Text.isBlank word = true) :
    cut head (k.gapText ++ word ++ k.comment) =
      { head, gap := [], value := []
        comment := if k.comment = [] then [] else k.gapText ++ word ++ k.comment } := by
  have hnone : Text.trimEnd (k.gapText ++ word) = [] := by
    rw [Text.trimEnd_eq_nil_iff, Text.isBlank, List.all_append, Bool.and_eq_true]
    exact ⟨List.all_eq_true.mpr hwhite, h⟩
  have hend := Text.trimEnd_append_endWhite (k.gapText ++ word)
  rw [hnone, List.nil_append] at hend
  have hvalue : Text.trim word = [] := by
    rw [← Text.trim_append_of_white hwhite, ← Text.trimStart_trimEnd, hnone]
    rfl
  rw [cut_written hwhite hcomment hword, hnone, hend, hvalue]
  rfl

/-- Otherwise the white space at the two ends of the word joins the gap and the
comment. -/
theorem cut_written_of_not_isBlank (head : Text) (h : Text.isBlank word = false) :
    cut head (k.gapText ++ word ++ k.comment) =
      { head
        gap := k.gapText ++ (Text.trimEnd word).takeWhile isWhite
        value := Text.trim word
        comment := if k.comment = [] then [] else Text.endWhite word ++ k.comment } := by
  have htrim : Text.trimEnd (k.gapText ++ word) = k.gapText ++ Text.trimEnd word := by
    rw [Text.trimEnd_append, if_neg]
    rw [List.isEmpty_iff, Text.trimEnd_eq_nil_iff, h]
    exact Bool.false_ne_true
  have hend : Text.endWhite (k.gapText ++ word) = Text.endWhite word := by
    have hsplit := Text.trimEnd_append_endWhite (k.gapText ++ word)
    rw [htrim, List.append_assoc] at hsplit
    have hword := List.append_cancel_left hsplit
    exact List.append_cancel_left (hword.trans (Text.trimEnd_append_endWhite word).symm)
  rw [cut_written hwhite hcomment hword, htrim, hend, List.takeWhile_append_of_pos hwhite]

/-- A line with a written value is written once more as it stands exactly when
its word settles. -/
theorem withValue_cut_eq_iff :
    (cut k.head (k.gapText ++ word ++ k.comment)).withValue word = k.withValue word ↔
      k.Settles word := by
  have hgap := k.gapText_ne_nil
  rw [withValue_eq k]
  cases hblank : Text.isBlank word with
  | true =>
      rw [cut_written_of_isBlank hwhite hcomment hword _ hblank, Settles, if_pos hblank]
      simp only [withValue, List.isEmpty_nil, if_true, List.append_assoc,
        List.append_cancel_left_eq]
      by_cases hc : k.comment = []
      · simp only [hc, if_true, List.append_nil, true_and]
        rw [List.append_left_inj, eq_comm]
      · refine iff_of_false (fun hsame => ?_) fun h => hc h.1
        have hlength := congrArg List.length hsame
        simp [hc] at hlength
        omega
  | false =>
      have hword' : ¬Text.isBlank word = true := by simp [hblank]
      have hhead : (Text.trimEnd word).takeWhile isWhite = [] ↔
          ∀ c ∈ word.head?, isWhite c = false := by
        rw [← Text.head?_trimEnd hblank]
        cases Text.trimEnd word <;> simp
      rw [cut_written_of_not_isBlank hwhite hcomment hword _ hblank, Settles, if_neg hword',
        ← hhead, ← Text.endWhite_eq_nil_iff]
      have hne : ∀ x, ¬(k.gapText ++ x).isEmpty = true := by simp [hgap]
      simp only [withValue, if_neg (hne _), List.append_assoc, List.append_cancel_left_eq]
      constructor
      · intro hsame
        have hlength := congrArg List.length hsame
        by_cases hc : k.comment = []
        · simp only [hc, if_true, List.length_append] at hlength
          exact ⟨List.eq_nil_of_length_eq_zero (by omega), Or.inl hc⟩
        · simp only [if_neg hc, List.length_append] at hlength
          exact ⟨List.eq_nil_of_length_eq_zero (by omega),
            Or.inr (List.eq_nil_of_length_eq_zero (by omega))⟩
      · rintro ⟨hlead, hc | hend⟩
        · simp [hlead, hc]
        · by_cases hc : k.comment = []
          · simp [hlead, hc]
          · simp [hlead, hend]

end Cut

end KeyLine

namespace Patch

variable {t u module path : Text} {i : Nat} {l : Line} {k : KeyLine}

theorem FieldAt.isComment (h : FieldAt t module path i l k) : Scalar.IsComment k.comment := by
  obtain ⟨front, rest, -, hcloses, rfl, -⟩ := h.exists_cut
  exact Scalar.isComment_snd_splitComment hcloses

theorem crosses_wordFor (k : KeyLine) (value : Scalar) :
    ∃ w, Scalar.Crosses (.outside true) (wordFor k value) (.outside w) :=
  Scalar.crosses_render _ value true

/-- Only a string that is written bare can fail to settle. -/
theorem settles_wordFor_iff {value : Scalar} :
    k.Settles (wordFor k value) ↔
      ∀ s, value = .str s → wordFor k value = s → k.Settles s := by
  constructor
  · rintro h s - hs
    rwa [← hs]
  · intro h
    have hne := Scalar.render_ne_nil (Quote.ofText k.value) value
    rcases Scalar.render_cases (Quote.ofText k.value) value with
      ⟨hword, -⟩ | ⟨s, hvalue, hdouble | ⟨-, hsingle⟩ | ⟨hwritten, -⟩⟩
    · exact KeyLine.settles_of_bare (Scalar.bare_of_isNumberWord hword) hne
    · rw [wordFor]
      rw [hdouble] at hne ⊢
      exact KeyLine.settles_of_bare (Scalar.bare_doubleQuoted s) hne
    · rw [wordFor]
      rw [hsingle] at hne ⊢
      exact KeyLine.settles_of_bare (Scalar.bare_singleQuoted s) hne
    · rw [wordFor, hwritten]
      exact h s hvalue hwritten

/-- A field that was set to a value is left as it is when it is set to the value
again, unless the value is a string that is written bare and does not settle. -/
theorem setField_again_iff {value : Scalar} (hu : setField t module path value = .ok u) :
    ∃ i l k, FieldAt t module path i l k ∧
      (setField u module path value = .ok u ↔
        ∀ s, value = .str s → wordFor k value = s → k.Settles s) := by
  obtain ⟨i, l, k, hfield, hrewritten⟩ := exists_of_setField_eq_ok hu
  obtain ⟨w, hword⟩ := crosses_wordFor k value
  have hwhite := hfield.isWhite_gapText
  obtain ⟨l', hl', hfield'⟩ := hfield.of_rewritten_self hrewritten
  -- The value is cut out of the line with its quotes, so the same word is
  -- written for it again.
  have hagain : wordFor (.cut k.head (k.gapText ++ wordFor k value ++ k.comment)) value =
      wordFor k value := by
    rw [wordFor, KeyLine.cut_written hwhite hfield.isComment hword]
    exact Scalar.render_ofText_trim_render _ value
  have hcontent : l'.content = k.withValue (wordFor k value) := congrArg Prod.fst hl'
  refine ⟨i, l, k, hfield, ?_⟩
  rw [hfield'.setField_eq_self_iff, hagain, hcontent, ← settles_wordFor_iff]
  exact KeyLine.withValue_cut_eq_iff hwhite hfield.isComment hword

/-- A string with a no-break space inside is written bare and stays as it is,
with a comment behind it. -/
theorem setField_again_inner_space :
    setField "m:\n  k: a # n\n".toList "m".toList "k".toList (.str "b\u00a0c".toList) =
        .ok "m:\n  k: b\u00a0c # n\n".toList ∧
      setField "m:\n  k: b\u00a0c # n\n".toList "m".toList "k".toList (.str "b\u00a0c".toList) =
        .ok "m:\n  k: b\u00a0c # n\n".toList := by
  have hu : setField "m:\n  k: a # n\n".toList "m".toList "k".toList (.str "b\u00a0c".toList) =
      .ok "m:\n  k: b\u00a0c # n\n".toList := by
    decide
  obtain ⟨i, l, k, hfield, hagain⟩ := setField_again_iff hu
  refine ⟨hu, hagain.mpr ?_⟩
  intro s hs _
  obtain rfl := Scalar.str.inj hs
  have hbare : Text.Bare "b\u00a0c".toList := by
    constructor <;>
    · rintro c ⟨⟩
      rfl
  exact KeyLine.settles_of_bare hbare (by decide)

/-- A no-break space at the start of a string is written once more each time. -/
theorem setField_again_leading_space :
    setField "m:\n  k: a\n".toList "m".toList "k".toList (.str "\u00a0b".toList) =
        .ok "m:\n  k: \u00a0b\n".toList ∧
      setField "m:\n  k: \u00a0b\n".toList "m".toList "k".toList (.str "\u00a0b".toList) =
        .ok "m:\n  k: \u00a0\u00a0b\n".toList := by
  decide

end Patch

end Yaml

end Marginalia
