import Marginalia.Proofs.Yaml.Items

/-!
# Where a value ends and its comment begins

The reader of a value position tells quoted from bare characters, so that a
number sign between quotes opens no comment.  It comes from outside quotes to
outside quotes by white space, by bare characters and by a quoted string as it
is written; so a rendered scalar is a value to the reader as a whole, with the
comment that follows it cut off where it begins.
-/

namespace Marginalia

open CharClass

namespace Yaml.Scalar

namespace CommentState

def outside (afterWhite : Bool) : CommentState :=
  ⟨false, false, false, afterWhite⟩

def inside (afterWhite : Bool) : CommentState :=
  ⟨false, true, false, afterWhite⟩

def quoted (afterWhite : Bool) : CommentState :=
  ⟨true, false, false, afterWhite⟩

variable (w : Bool) {c : Char}

theorem step_outside (hdouble : c ≠ '"') (hsingle : c ≠ '\'') :
    (outside w).step c = outside (isWhite c) := by
  simp [step, outside, hdouble, hsingle]

theorem step_quoted (hsingle : c ≠ '\'') : (quoted w).step c = quoted (isWhite c) := by
  simp [step, quoted, hsingle]

theorem step_inside (hdouble : c ≠ '"') (hbackslash : c ≠ '\\') :
    (inside w).step c = inside (isWhite c) := by
  simp [step, inside, hdouble, hbackslash]

theorem step_step_inside (c : Char) : ((inside w).step '\\').step c = inside (isWhite c) := by
  simp [step, inside]

@[simp] theorem step_outside_single : (outside w).step '\'' = quoted false := rfl

@[simp] theorem step_outside_double : (outside w).step '"' = inside false := rfl

@[simp] theorem step_quoted_single : (quoted w).step '\'' = outside false := rfl

@[simp] theorem step_inside_double : (inside w).step '"' = outside false := rfl

end CommentState

open CommentState

/-- A text takes the reader from one state to another, and no comment opens on
the way. -/
inductive Crosses : CommentState → Text → CommentState → Prop
  | nil (s : CommentState) : Crosses s [] s
  | cons {s s' : CommentState} {c : Char} {t : Text} (hc : s.opensComment c = false)
      (ht : Crosses (s.step c) t s') : Crosses s (c :: t) s'

namespace Crosses

variable {s s' s'' : CommentState} {t u : Text}

theorem append (h : Crosses s t s') (h' : Crosses s' u s'') : Crosses s (t ++ u) s'' := by
  induction h with
  | nil => exact h'
  | cons hc _ ih => exact .cons hc (ih h')

theorem beforeComment_append (h : Crosses s t s') (u : Text) :
    beforeComment s (t ++ u) = t ++ beforeComment s' u := by
  induction h with
  | nil => rfl
  | cons hc _ ih => simp [beforeComment, hc, ih]

theorem beforeComment_eq (h : Crosses s t s') : beforeComment s t = t := by
  simpa [beforeComment] using h.beforeComment_append []

/-- Whether the reader has white space behind it depends on the last
character. -/
theorem afterWhite_eq (h : Crosses s t s') :
    t = [] ∧ s' = s ∨ ∃ c, t.getLast? = some c ∧ s'.afterWhite = isWhite c := by
  induction h with
  | nil => exact Or.inl ⟨rfl, rfl⟩
  | @cons s s' c t _ _ ih =>
      right
      rcases ih with ⟨rfl, rfl⟩ | ⟨d, hlast, hwhite⟩
      · exact ⟨c, rfl, rfl⟩
      · exact ⟨d, by rw [List.getLast?_cons, hlast]; rfl, hwhite⟩

end Crosses

/-- A comment opens somewhere in a text, or nowhere. -/
theorem exists_crosses (s : CommentState) (t : Text) :
    (∃ s', Crosses s t s') ∨ ∃ lead r s', t = lead ++ '#' :: r ∧ Crosses s lead s' ∧
      s'.opensComment '#' = true := by
  induction t generalizing s with
  | nil => exact Or.inl ⟨s, .nil s⟩
  | cons c t ih =>
      cases hc : s.opensComment c with
      | true =>
          obtain rfl : c = '#' := by
            simp only [opensComment, Bool.and_eq_true, beq_iff_eq] at hc
            exact hc.1.1.1.1
          exact Or.inr ⟨[], t, s, rfl, .nil s, hc⟩
      | false =>
          rcases ih (s.step c) with ⟨s', h⟩ | ⟨lead, r, s', rfl, h, hopens⟩
          · exact Or.inl ⟨s', .cons hc h⟩
          · exact Or.inr ⟨c :: lead, r, s', rfl, .cons hc h, hopens⟩

/-! ## What a value position is cut into -/

/-- Nothing, or white space with a number sign behind it and whatever
follows. -/
def IsComment (t : Text) : Prop :=
  t = [] ∨ ∃ gap r, gap ≠ [] ∧ (∀ c ∈ gap, isWhite c = true) ∧ t = gap ++ '#' :: r

theorem splitComment_of_crosses {t : Text} {s : CommentState} (h : Crosses .start t s) :
    splitComment t = (Text.trimEnd t, []) := by
  simp [splitComment, h.beforeComment_eq]

theorem splitComment_numberSign {lead : Text} {s : CommentState} (h : Crosses .start lead s)
    (hopens : s.opensComment '#' = true) (r : Text) :
    splitComment (lead ++ '#' :: r) =
      (Text.trimEnd lead, Text.endWhite lead ++ '#' :: r) := by
  have hlead : beforeComment .start (lead ++ '#' :: r) = lead := by
    rw [h.beforeComment_append, beforeComment, if_pos hopens, List.append_nil]
  have hlength : lead.length < (lead ++ '#' :: r).length := by simp
  simp only [splitComment, hlead, if_pos hlength, Text.drop_length_trimEnd]

/-- The comment of a value position that is empty or begins with white space has
white space before its number sign. -/
theorem isComment_snd_splitComment {t : Text} (ht : LineKind.closesKey t = true) :
    IsComment (splitComment t).2 := by
  rcases exists_crosses .start t with ⟨s, h⟩ | ⟨lead, r, s, rfl, h, hopens⟩
  · rw [splitComment_of_crosses h]
    exact Or.inl rfl
  · rw [splitComment_numberSign h hopens]
    refine Or.inr ⟨Text.endWhite lead, r, ?_, fun c => Text.isWhite_of_mem_endWhite, rfl⟩
    rcases h.afterWhite_eq with ⟨rfl, rfl⟩ | ⟨c, hlast, hwhite⟩
    · have hsign : isWhite '#' = false := by decide
      simp [LineKind.closesKey, hsign] at ht
    · intro hnone
      have hc := Text.endWhite_eq_nil_iff.mp hnone c hlast
      simp [opensComment, hwhite, hc] at hopens

/-! ## What the reader crosses -/

theorem crosses_white {gap : Text} (hgap : ∀ c ∈ gap, isWhite c = true) {w : Bool}
    (hstart : gap ≠ [] ∨ w = true) : Crosses (outside w) gap (outside true) := by
  induction gap generalizing w with
  | nil =>
      obtain rfl := hstart.resolve_left fun h => h rfl
      exact .nil _
  | cons c gap ih =>
      have hc := hgap c (by simp)
      have hnone : ∀ d : Char, isWhite d = false → c ≠ d :=
        fun d hd => (CharClass.ne_of_class hd hc).symm
      have hsign := hnone '#' (by decide)
      have hdouble := hnone '"' (by decide)
      have hsingle := hnone '\'' (by decide)
      refine .cons (by simp [opensComment, hsign]) ?_
      rw [step_outside w hdouble hsingle, hc]
      exact ih (fun d hd => hgap d (by simp [hd])) (Or.inr rfl)

/-- Characters that are neither quotes nor number signs. -/
theorem crosses_bare {t : Text} (ht : ∀ c ∈ t, c ≠ '"' ∧ c ≠ '\'' ∧ c ≠ '#') (w : Bool) :
    ∃ w', Crosses (outside w) t (outside w') := by
  induction t generalizing w with
  | nil => exact ⟨w, .nil _⟩
  | cons c t ih =>
      obtain ⟨hdouble, hsingle, hsign⟩ := ht c (by simp)
      obtain ⟨w', h⟩ := ih (fun d hd => ht d (by simp [hd])) (isWhite c)
      refine ⟨w', .cons (by simp [opensComment, hsign]) ?_⟩
      rwa [step_outside w hdouble hsingle]

/-- Between double quotes, characters that are neither a double quote nor a
backslash. -/
theorem crosses_inside {t : Text} (ht : ∀ c ∈ t, c ≠ '"' ∧ c ≠ '\\') (w : Bool) :
    ∃ w', Crosses (inside w) t (inside w') := by
  induction t generalizing w with
  | nil => exact ⟨w, .nil _⟩
  | cons c t ih =>
      obtain ⟨hdouble, hbackslash⟩ := ht c (by simp)
      obtain ⟨w', h⟩ := ih (fun d hd => ht d (by simp [hd])) (isWhite c)
      refine ⟨w', .cons (by simp [opensComment, inside]) ?_⟩
      rwa [step_inside w hdouble hbackslash]

theorem crosses_escaped {c : Char} (hc : isWhite c = false) (w : Bool) :
    Crosses (inside w) ['\\', c] (inside false) := by
  have hopens : ∀ d, ((inside w).step '\\').opensComment d = false := by
    simp [opensComment, step, inside]
  refine .cons (by simp [opensComment, inside]) (.cons (hopens c) ?_)
  rw [step_step_inside, hc]
  exact .nil _

theorem crosses_escape (c : Char) (w : Bool) : ∃ w', Crosses (inside w) (escape c) (inside w') := by
  have hhex : ∀ n < 0xA0, (Text.hex 4 n).all (fun d => d != '"' && d != '\\') = true := by
    decide +kernel
  unfold escape
  split_ifs with hbackslash hquote hfeed hreturn htab hcontrol
  · exact ⟨false, crosses_escaped (by decide) w⟩
  · exact ⟨false, crosses_escaped (by decide) w⟩
  · exact ⟨false, crosses_escaped (by decide) w⟩
  · exact ⟨false, crosses_escaped (by decide) w⟩
  · exact ⟨false, crosses_escaped (by decide) w⟩
  · have hlow : c.toNat < 0xA0 := by
      rw [isControl_iff] at hcontrol
      omega
    have hdigits := List.all_eq_true.mp (hhex c.toNat hlow)
    obtain ⟨w', h⟩ := crosses_inside (t := Text.hex 4 c.toNat)
      (fun d hd => by simpa using hdigits d hd) false
    exact ⟨w', (crosses_escaped (by decide) w).append h⟩
  · exact crosses_inside (by simpa using ⟨hquote, hbackslash⟩) w

theorem crosses_doubleQuoted (s : Text) (w : Bool) :
    Crosses (outside w) (doubleQuoted s) (outside false) := by
  have hbody : ∀ w, ∃ w', Crosses (inside w) (s.flatMap escape) (inside w') := by
    induction s with
    | nil => exact fun w => ⟨w, .nil _⟩
    | cons c s ih =>
        intro w
        obtain ⟨w₁, h₁⟩ := crosses_escape c w
        obtain ⟨w₂, h₂⟩ := ih w₁
        exact ⟨w₂, h₁.append h₂⟩
  obtain ⟨w', h⟩ := hbody false
  have hclose : Crosses (inside w') ['"'] (outside false) :=
    .cons (by simp [opensComment]) (.nil _)
  exact .cons (by simp [opensComment]) (h.append hclose)

theorem crosses_doubleApostrophe (c : Char) (w : Bool) :
    ∃ w', Crosses (quoted w) (doubleApostrophe c) (quoted w') := by
  unfold doubleApostrophe
  split
  · exact ⟨false, .cons rfl (.cons rfl (.nil _))⟩
  · next hsingle =>
      refine ⟨isWhite c, .cons (by simp [opensComment, quoted]) ?_⟩
      rw [step_quoted w hsingle]
      exact .nil _

theorem crosses_singleQuoted (s : Text) (w : Bool) :
    Crosses (outside w) (singleQuoted s) (outside false) := by
  have hbody : ∀ w, ∃ w', Crosses (quoted w) (s.flatMap doubleApostrophe) (quoted w') := by
    induction s with
    | nil => exact fun w => ⟨w, .nil _⟩
    | cons c s ih =>
        intro w
        obtain ⟨w₁, h₁⟩ := crosses_doubleApostrophe c w
        obtain ⟨w₂, h₂⟩ := ih w₁
        exact ⟨w₂, h₁.append h₂⟩
  unfold singleQuoted
  split
  · exact crosses_doubleQuoted s w
  · obtain ⟨w', h⟩ := hbody false
    have hclose : Crosses (quoted w') ['\''] (outside false) :=
      .cons (by simp [opensComment]) (.nil _)
    exact .cons (by simp [opensComment]) (h.append hclose)

/-! ## Rendered scalars -/

theorem quotes_not_mem_of_needsQuotes_eq_false {s : Text} (h : needsQuotes s = false) {c : Char}
    (hc : c ∈ s) : c ≠ '"' ∧ c ≠ '\'' ∧ c ≠ '#' := by
  simp only [needsQuotes, Bool.or_eq_false_iff, List.any_eq_false] at h
  have hdelicate := h.2 c hc
  simp only [isDelicate, Bool.or_eq_true, not_or, beq_iff_eq] at hdelicate
  exact ⟨hdelicate.1.1.1.2, hdelicate.1.1.2, hdelicate.1.1.1.1.2⟩

/-- What is written for a scalar: one word, whichever quotes were there before,
or a string between quotes or bare. -/
theorem render_cases (quote : Quote) (value : Scalar) :
    IsNumberWord (value.render quote) ∧ (∀ quote', value.render quote' = value.render quote) ∨
      ∃ s, value = .str s ∧ (value.render quote = doubleQuoted s ∨
        quote = .single ∧ value.render quote = singleQuoted s ∨
        value.render quote = s ∧ needsQuotes s = false) := by
  cases value with
  | null => exact Or.inl ⟨isNumberWord_render .null quote, fun _ => rfl⟩
  | bool b =>
      refine Or.inl ⟨isNumberWord_render (.bool b) quote, fun _ => ?_⟩
      cases b <;> rfl
  | int i => exact Or.inl ⟨Text.isNumberWord_ofInt i, fun _ => rfl⟩
  | float x => exact Or.inl ⟨isNumberWord_write x, fun _ => rfl⟩
  | str s =>
      refine Or.inr ⟨s, rfl, ?_⟩
      cases quote with
      | double => exact Or.inl rfl
      | single => exact Or.inr (Or.inl ⟨rfl, rfl⟩)
      | plain =>
          rw [render]
          split
          · exact Or.inl rfl
          · next hbare => exact Or.inr (Or.inr ⟨rfl, by simpa using hbare⟩)

theorem crosses_render (quote : Quote) (value : Scalar) (w : Bool) :
    ∃ w', Crosses (outside w) (value.render quote) (outside w') := by
  rcases render_cases quote value with
    ⟨hword, -⟩ | ⟨s, -, hdouble | ⟨-, hsingle⟩ | ⟨hwritten, hbare⟩⟩
  · apply crosses_bare
    intro c hc
    have hchar := hword.chars c hc
    refine ⟨?_, ?_, ?_⟩ <;>
    · rintro rfl
      exact absurd hchar (by decide)
  · rw [hdouble]
    exact ⟨false, crosses_doubleQuoted s w⟩
  · rw [hsingle]
    exact ⟨false, crosses_singleQuoted s w⟩
  · rw [hwritten]
    exact crosses_bare (fun c hc => quotes_not_mem_of_needsQuotes_eq_false hbare hc) w

/-- A text that the reader crosses is a value, and the comment behind it is cut
off together with the white space before it. -/
theorem splitComment_append {q c : Text} {w : Bool} (hq : Crosses .start q (outside w))
    (hc : IsComment c) :
    splitComment (q ++ c) = (Text.trimEnd q, if c = [] then [] else Text.endWhite q ++ c) := by
  rcases hc with rfl | ⟨gap, r, hgap, hwhite, rfl⟩
  · rw [List.append_nil, splitComment_of_crosses hq, if_pos rfl]
  · have hlead : Crosses .start (q ++ gap) (outside true) :=
      hq.append (crosses_white hwhite (Or.inl hgap))
    have hend : Text.endWhite (q ++ gap) = Text.endWhite q ++ gap := by
      have hsplit := Text.trimEnd_append_endWhite (q ++ gap)
      rw [Text.trimEnd_append_of_white hwhite] at hsplit
      have hsame : Text.trimEnd q ++ Text.endWhite (q ++ gap) =
          Text.trimEnd q ++ (Text.endWhite q ++ gap) := by
        rw [hsplit, ← List.append_assoc, Text.trimEnd_append_endWhite]
      exact List.append_cancel_left hsame
    rw [← List.append_assoc, splitComment_numberSign hlead rfl, hend,
      Text.trimEnd_append_of_white hwhite, if_neg (by simp), List.append_assoc]

end Yaml.Scalar

end Marginalia
