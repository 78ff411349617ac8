import Marginalia.Proofs.Yaml.Bare

/-!
# Written strings that are read back

A string that is written behind a key is read back as itself under a condition
that depends on its quotes.  Between quotes only the line and paragraph
separators do harm: white space beside them is folded, and a document marker
behind one of them breaks the quotes.  A bare string must hold no separator at
all, begin with a character that begins no other token, and spell nothing else:
no null, no truth value, no number.  Whether a bare string gets quotes is
decided without any of these questions.
-/

namespace Marginalia.Yaml

open CharClass

open Source (isGap isNoncharacter isSeparator Unmarked Apart)

namespace Scalar

/-! ## When a written string is read back -/

/-- A string that is read back between quotes. -/
structure ReadsQuoted (s : Text) : Prop where
  /-- No space stands beside a separator. -/
  apart : s.IsChain Apart
  /-- No separator has a document marker behind it. -/
  unmarked : Unmarked s

theorem readsQuoted_of_isSeparator {s : Text} (hs : ∀ c ∈ s, isSeparator c = false) :
    ReadsQuoted s where
  apart := by
    refine (List.pairwise_of_forall_mem_list fun a ha b hb => ?_).isChain
    simp [Apart, hs a ha, hs b hb]
  unmarked := by
    rintro front c back rfl hseparator
    rw [hs c (by simp)] at hseparator
    cases hseparator

/-- A string that is read back without quotes. -/
structure ReadsBare (s : Text) : Prop where
  oneLine : ∀ c ∈ s, isSeparator c = false
  opens : opensBare s = true
  notNull : Value.isNull s = false
  notBool : Value.bool? s = none
  notInteger : Value.ofInteger? s = none
  notFloat : Value.hasLeadingZero s = true ∨ Value.float? s = none

/-- A string that is read back when it replaces a value with the given
quotes. -/
structure ReadsBack (quote : Quote) (s : Text) : Prop where
  allowed : ∀ c ∈ s, isNoncharacter c = false
  quoted : ¬(quote = .plain ∧ needsQuotes s = false) → ReadsQuoted s
  bare : quote = .plain → needsQuotes s = false → ReadsBare s

/-- A rendered string is bare, or it stands between quotes that can hold it. -/
theorem render_str_cases (quote : Quote) (s : Text) :
    (quote = .plain ∧ needsQuotes s = false ∧ (str s).render quote = s) ∨
      ¬(quote = .plain ∧ needsQuotes s = false) ∧ ∃ double, (∀ c ∈ s, Token.Quotable double c) ∧
        (str s).render quote = Token.mark double :: Token.inside double s := by
  have hdouble : ∀ c ∈ s, Token.Quotable true c := fun _ _ => Or.inl rfl
  cases quote with
  | double => exact Or.inr ⟨by simp, true, hdouble, Token.doubleQuoted_eq s⟩
  | single =>
      right
      refine ⟨by simp, ?_⟩
      cases hcontrol : s.any isControl with
      | true => exact ⟨true, hdouble, by rw [render, singleQuoted, hcontrol]; rfl⟩
      | false =>
          refine ⟨false, ?_, Token.singleQuoted_eq hcontrol⟩
          intro c hc
          exact Or.inr (by simpa using List.any_eq_false.mp hcontrol c hc)
  | plain =>
      cases hquotes : needsQuotes s with
      | true => exact Or.inr ⟨by simp, true, hdouble, by rw [render, if_pos hquotes]; rfl⟩
      | false => exact Or.inl ⟨rfl, rfl, by rw [render, hquotes]; rfl⟩

end Scalar

namespace Value

open Scalar (ReadsBare ReadsQuoted)

variable {s : Text}

theorem ofText_bare_iff (hquotes : Scalar.needsQuotes s = false)
    (hn : ∀ c ∈ s, isNoncharacter c = false) :
    ofText (field s) = .ok (map [(str ['k'], str s)]) ↔ ReadsBare s := by
  have hcontrol := Scalar.noControl_of_needsQuotes_eq_false hquotes
  obtain ⟨hempty, hdelicate⟩ := Bool.or_eq_false_iff.mp hquotes
  have hs : ∀ c ∈ s, Scalar.isDelicate c = false := by simpa using hdelicate
  cases s with
  | nil => simp at hempty
  | cons c r =>
      by_cases hopen : (∃ d ∈ c :: r, isSeparator d = true) ∨ Scalar.opensBare (c :: r) = false
      · apply iff_of_false
        · exact ofText_field_ne hcontrol hn (Nat.lt_succ_self r.length)
            (Scalar.ensures_run_of_not_readsOpen hs hopen _)
        · intro h
          rcases hopen with ⟨d, hd, hseparator⟩ | hopens
          · rw [h.oneLine d hd] at hseparator
            exact absurd hseparator (by decide)
          · rw [h.opens] at hopens
            exact absurd hopens (by decide)
      · simp only [not_or, not_exists, not_and, Bool.not_eq_true, Bool.not_eq_false] at hopen
        obtain ⟨hseparator, hopens⟩ := hopen
        have hrun := Scalar.run_of_readsOpen hs hseparator hopens ((c :: r).length + 1)
        have hscalar : ofScalar false none true (c :: r) = ofPlain (c :: r) := rfl
        rw [ofText_field_of_atEnd hcontrol hn hrun, hscalar]
        have hplain : (ofPlain (c :: r) >>= fun value => .ok (map [(str ['k'], value)])) =
            .ok (map [(str ['k'], str (c :: r))]) ↔ ofPlain (c :: r) = .ok (str (c :: r)) := by
          cases ofPlain (c :: r) <;> simp [bind, Except.bind]
        rw [hplain, ofPlain_eq_str_iff]
        constructor
        · rintro ⟨-, -, hnull, hbool, hinteger, hfloat⟩
          exact ⟨hseparator, hopens, hnull, hbool, hinteger, hfloat⟩
        · intro h
          exact ⟨rfl, by simp, h.notNull, h.notBool, h.notInteger, h.notFloat⟩

theorem ofText_quoted_iff {double : Bool} (hs : ∀ c ∈ s, Token.Quotable double c)
    (hcontrol : Text.NoControl (Token.mark double :: Token.inside double s))
    (hn : ∀ c ∈ Token.mark double :: Token.inside double s, isNoncharacter c = false) :
    ofText (field (Token.mark double :: Token.inside double s)) =
        .ok (map [(str ['k'], str s)]) ↔
      ReadsQuoted s := by
  let v : Text := Token.mark double :: Token.inside double s
  have hgap : isGap (Token.mark double) = false := by cases double <;> decide
  have hcomment : Token.mark double ≠ '#' := by cases double <;> decide
  have happroach := Scan.approach_atValue (Token.inside double s) hgap hcomment
  have hdispatch : (Scan.atText v).dispatch (Token.mark double) (Token.inside double s) =
      Token.quotedFrom double .start 0 4 (Token.inside double s) >>= fun p =>
        .ok { (Scan.atText v).push (.scalar false p.1) with
          cursor := p.2, keyAllowed := false } := by
    cases double <;> rfl
  have hrun := Scan.run_eq_dispatch happroach rfl (v.length + 1)
  rw [hdispatch] at hrun
  have hnil : Source.atGap [] = true := rfl
  by_cases hmarked : Unmarked s
  · obtain ⟨line, column, -, hread⟩ := Token.exists_quotedFrom_inside_eq_ok
      (q := .start) rfl hs hnil 0 4 (by simp) hmarked
    rw [List.append_nil] at hread
    have hend : Scan.run (v.length + 2) (Scan.atValue v) =
        Scan.run (v.length + 1) (Scan.atEnd false (Token.folded s) line column) := by
      rw [hrun, hread]
      rfl
    have hvalue : ofText (field v) = .ok (map [(str ['k'], str (Token.folded s))]) :=
      ofText_field_of_atEnd hcontrol hn hend
    have hsame : (Except.ok (map [(str ['k'], str (Token.folded s))]) : Except Error Value) =
        .ok (map [(str ['k'], str s)]) ↔ Token.folded s = s := by
      simp
    rw [hvalue, hsame, Token.folded_eq_iff]
    constructor
    · intro h
      exact ⟨h, hmarked⟩
    · intro h
      exact h.apart
  · have hunclosed := Token.quotedFrom_inside_eq_error (q := .start) rfl hs hnil 0 4
      fun h => hmarked h.2
    rw [List.append_nil] at hunclosed
    have herror : Scan.run (v.length + 2) (Scan.atValue v) = .error .unclosedQuote := by
      rw [hrun, hunclosed]
      rfl
    apply iff_of_false
    · rw [ofText_field hcontrol hn, herror]
      simp [bind, Except.bind]
    · intro h
      exact hmarked h.unmarked

end Value

/-- A string that is written behind a key is read back as the same string
exactly under the condition that its quotes put on it. -/
theorem ofText_render_eq_ok_iff (quote : Quote) (s : Text) :
    Value.ofText ("k: ".toList ++ (Scalar.str s).render quote) =
        .ok (.map [(.str ['k'], .str s)]) ↔
      Scalar.ReadsBack quote s := by
  have hfield : "k: ".toList ++ (Scalar.str s).render quote =
      field ((Scalar.str s).render quote) := rfl
  have hcontrol := Scalar.noControl_render quote (.str s)
  rw [hfield]
  by_cases hn : ∀ c ∈ s, isNoncharacter c = false
  · rcases Scalar.render_str_cases quote s with
      ⟨hplain, hquotes, hrender⟩ | ⟨hquoted, double, hs, hrender⟩
    · rw [hrender, Value.ofText_bare_iff hquotes hn]
      constructor
      · intro h
        exact ⟨hn, fun hno => absurd ⟨hplain, hquotes⟩ hno, fun _ _ => h⟩
      · intro h
        exact h.bare hplain hquotes
    · rw [hrender] at hcontrol ⊢
      have hallowed : ∀ c ∈ Token.mark double :: Token.inside double s,
          isNoncharacter c = false := by
        intro c hc
        by_contra hno
        rw [Bool.not_eq_false] at hno
        rw [hn c ((Token.mem_inside_iff hno).mp hc)] at hno
        exact absurd hno (by decide)
      rw [Value.ofText_quoted_iff hs hcontrol hallowed]
      constructor
      · intro h
        exact ⟨hn, fun _ => h, fun hplain hquotes => absurd ⟨hplain, hquotes⟩ hquoted⟩
      · intro h
        exact h.quoted hquoted
  · simp only [not_forall, Bool.not_eq_false] at hn
    obtain ⟨c, hc, hn⟩ := hn
    have hmem : c ∈ (Scalar.str s).render quote := by
      rcases Scalar.render_str_cases quote s with ⟨-, -, hrender⟩ | ⟨-, double, -, hrender⟩
      · rwa [hrender]
      · rw [hrender]
        exact (Token.mem_inside_iff hn).mpr hc
    obtain ⟨e, he⟩ := Value.exists_ofText_field_eq_error hcontrol hmem hn
    apply iff_of_false
    · rw [he]
      simp
    · intro h
      rw [h.allowed c hc] at hn
      exact absurd hn (by decide)

/-- A word for a truth value is written bare and is read back as that truth
value. -/
theorem ofText_render_true :
    Value.ofText ("k: ".toList ++ (Scalar.str "true".toList).render .plain) =
        .ok (.map [(.str ['k'], .bool true)]) ∧
      Value.ofText ("k: ".toList ++ (Scalar.str "true".toList).render .plain) ≠
        .ok (.map [(.str ['k'], .str "true".toList)]) := by
  have hchars : ∀ c ∈ ['t', 'r', 'u', 'e'],
      Scalar.isDelicate c = false ∧ isSeparator c = false ∧ isNoncharacter c = false := by
    simp only [List.forall_mem_cons, List.not_mem_nil, false_implies, implies_true]
    decide
  have hrun := Scalar.run_of_readsOpen (fun c hc => (hchars c hc).1)
    (fun c hc => (hchars c hc).2.1) (by decide) 5
  have hvalue : Value.ofText (field ['t', 'r', 'u', 'e']) = .ok (.map [(.str ['k'], .bool true)]) :=
    Value.ofText_field_of_atEnd (by decide) (fun c hc => (hchars c hc).2.2) hrun
  have hfield : "k: ".toList ++ (Scalar.str "true".toList).render .plain =
      field ['t', 'r', 'u', 'e'] := by decide
  rw [hfield, hvalue]
  exact ⟨rfl, by simp⟩

end Marginalia.Yaml
