import Marginalia.Proofs.Yaml.Comment
import Marginalia.Proofs.Yaml.FieldText

/-!
# The comment behind a plain value

Behind a plain value a comment opens at the first number sign with white space
before it.  The reader of a value position counts the quotes of a plain value
like those around a quoted one: a number sign that follows an open quote is a
part of the value to it.  So the comment of a field is kept exactly when each
quote in the value before it is closed, and an apostrophe inside a word is
enough to lose it.
-/

namespace Marginalia

open CharClass

namespace Yaml

namespace Scalar

/-! ## Closed quotes -/

/-- The inside of a string between double quotes: a double quote in it has a
backslash before it. -/
inductive EscapedBody : Text → Prop
  | nil : EscapedBody []
  | char {c : Char} {t : Text} (hquote : c ≠ '"') (hbackslash : c ≠ '\\') (h : EscapedBody t) :
      EscapedBody (c :: t)
  | escape (c : Char) {t : Text} (h : EscapedBody t) : EscapedBody ('\\' :: c :: t)

/-- Each quote that is opened in a text is closed in it. -/
inductive QuotesClosed : Text → Prop
  | nil : QuotesClosed []
  | bare {c : Char} {t : Text} (hdouble : c ≠ '"') (hsingle : c ≠ '\'') (h : QuotesClosed t) :
      QuotesClosed (c :: t)
  | single {body t : Text} (hbody : '\'' ∉ body) (h : QuotesClosed t) :
      QuotesClosed ('\'' :: (body ++ '\'' :: t))
  | double {body t : Text} (hbody : EscapedBody body) (h : QuotesClosed t) :
      QuotesClosed ('"' :: (body ++ '"' :: t))

namespace CommentState

def after (s : CommentState) (t : Text) : CommentState :=
  t.foldl step s

def isOutside (s : CommentState) : Bool :=
  !s.inSingle && !s.inDouble

variable (s : CommentState) {c : Char} {t u : Text}

@[simp] theorem after_nil : s.after [] = s := rfl

@[simp] theorem after_cons : s.after (c :: t) = (s.step c).after t := rfl

@[simp] theorem after_append : s.after (t ++ u) = (s.after t).after u :=
  List.foldl_append

/-- White space neither opens nor closes a quote. -/
theorem isOutside_step (hc : isWhite c = true) : (s.step c).isOutside = s.isOutside := by
  have hnone : ∀ d : Char, isWhite d = false → c ≠ d := fun d hd => (ne_of_class hd hc).symm
  have hdouble := hnone '"' (by decide)
  have hsingle := hnone '\'' (by decide)
  have hbackslash := hnone '\\' (by decide)
  simp [step, isOutside, hdouble, hsingle, hbackslash]
  split <;> rfl

theorem opensComment_eq_false (h : s.isOutside = false) (c : Char) : s.opensComment c = false := by
  simp only [isOutside, Bool.and_eq_false_iff, Bool.not_eq_false'] at h
  rcases h with h | h <;> simp [opensComment, h]

theorem isOutside_after (ht : ∀ c ∈ t, isWhite c = true) :
    (s.after t).isOutside = s.isOutside := by
  induction t generalizing s with
  | nil => rfl
  | cons c t ih =>
      rw [after_cons, ih _ fun d hd => ht d (by simp [hd]), isOutside_step s (ht c (by simp))]

end CommentState

open CommentState

theorem exists_after_quoted {body : Text} (h : '\'' ∉ body) (w : Bool) :
    ∃ w', (quoted w).after body = quoted w' := by
  induction body generalizing w with
  | nil => exact ⟨w, rfl⟩
  | cons c body ih =>
      rw [List.mem_cons, not_or] at h
      rw [after_cons, step_quoted w (Ne.symm h.1)]
      exact ih h.2 _

theorem EscapedBody.exists_after {body : Text} (h : EscapedBody body) (w : Bool) :
    ∃ w', (inside w).after body = inside w' := by
  induction h generalizing w with
  | nil => exact ⟨w, rfl⟩
  | char hquote hbackslash _ ih =>
      rw [after_cons, step_inside w hquote hbackslash]
      exact ih _
  | escape c _ ih =>
      rw [after_cons, after_cons, step_step_inside]
      exact ih _

theorem QuotesClosed.exists_after {t : Text} (h : QuotesClosed t) (w : Bool) :
    ∃ w', (outside w).after t = outside w' := by
  induction h generalizing w with
  | nil => exact ⟨w, rfl⟩
  | bare hdouble hsingle _ ih =>
      rw [after_cons, step_outside w hdouble hsingle]
      exact ih _
  | single hbody _ ih =>
      obtain ⟨w', hw'⟩ := exists_after_quoted hbody false
      rw [after_cons, step_outside_single, after_append, hw', after_cons, step_quoted_single]
      exact ih _
  | double hbody _ ih =>
      obtain ⟨w', hw'⟩ := hbody.exists_after false
      rw [after_cons, step_outside_double, after_append, hw', after_cons, step_inside_double]
      exact ih _

theorem exists_of_isOutside_quoted {t : Text} {w : Bool}
    (h : ((quoted w).after t).isOutside = true) :
    ∃ body r, t = body ++ '\'' :: r ∧ '\'' ∉ body ∧ ((outside false).after r).isOutside = true := by
  induction t generalizing w with
  | nil => simp [isOutside, quoted] at h
  | cons c t ih =>
      by_cases hc : c = '\''
      · subst hc
        exact ⟨[], t, rfl, by simp, h⟩
      · rw [after_cons, step_quoted w hc] at h
        obtain ⟨body, r, rfl, hbody, hr⟩ := ih h
        exact ⟨c :: body, r, rfl, by simp [Ne.symm hc, hbody], hr⟩

theorem exists_of_isOutside_inside {t : Text} {w : Bool}
    (h : ((inside w).after t).isOutside = true) :
    ∃ body r, t = body ++ '"' :: r ∧ EscapedBody body ∧
      ((outside false).after r).isOutside = true := by
  -- An escape takes two characters at once.
  induction hn : t.length using Nat.strongRecOn generalizing t w with
  | ind n ih =>
      rcases t with _ | ⟨c, t⟩
      · simp [isOutside, inside] at h
      · by_cases hquote : c = '"'
        · subst hquote
          exact ⟨[], t, rfl, .nil, h⟩
        · by_cases hbackslash : c = '\\'
          · subst hbackslash
            rcases t with _ | ⟨d, t⟩
            · simp [isOutside, inside, step] at h
            · rw [after_cons, after_cons, step_step_inside] at h
              obtain ⟨body, r, rfl, hbody, hr⟩ := ih t.length (by simp at hn; omega) h rfl
              exact ⟨'\\' :: d :: body, r, rfl, .escape d hbody, hr⟩
          · rw [after_cons, step_inside w hquote hbackslash] at h
            obtain ⟨body, r, rfl, hbody, hr⟩ := ih t.length (by simp at hn; omega) h rfl
            exact ⟨c :: body, r, rfl, .char hquote hbackslash hbody, hr⟩

/-- Outside quotes is where the reader is behind closed quotes, and only
there. -/
theorem quotesClosed_iff {t : Text} (w : Bool) :
    QuotesClosed t ↔ ((outside w).after t).isOutside = true := by
  constructor
  · intro h
    obtain ⟨w', hw'⟩ := h.exists_after w
    rw [hw']
    rfl
  · intro h
    induction hn : t.length using Nat.strongRecOn generalizing t w with
    | ind n ih =>
        rcases t with _ | ⟨c, t⟩
        · exact .nil
        · by_cases hdouble : c = '"'
          · subst hdouble
            obtain ⟨body, r, rfl, hbody, hr⟩ := exists_of_isOutside_inside h
            exact .double hbody (ih r.length (by simp at hn; omega) false hr rfl)
          · by_cases hsingle : c = '\''
            · subst hsingle
              obtain ⟨body, r, rfl, hbody, hr⟩ := exists_of_isOutside_quoted h
              exact .single hbody (ih r.length (by simp at hn; omega) false hr rfl)
            · rw [after_cons, step_outside w hdouble hsingle] at h
              exact .bare hdouble hsingle (ih t.length (by simp at hn; omega) _ h rfl)

instance : DecidablePred QuotesClosed :=
  fun _ => decidable_of_iff _ (quotesClosed_iff true).symm

/-! ## The first number sign with white space before it -/

/-- A value position is a value and a note: the first number sign with white
space before it, with that white space and all that follows. -/
structure FirstNote (rest value note : Text) : Prop where
  split : rest = value ++ note
  opens : ∃ gap r, gap ≠ [] ∧ (∀ c ∈ gap, isWhite c = true) ∧ note = gap ++ '#' :: r
  edge : ∀ c ∈ value.getLast?, isWhite c = false
  first : value.IsChain fun c d => d = '#' → isWhite c = false

/-- Where no number sign has white space before it, no comment opens, whatever
the quotes. -/
theorem crosses_after {s : CommentState} {t : Text}
    (hfirst : t.IsChain fun c d => d = '#' → isWhite c = false)
    (hhead : s.afterWhite = true → t.head? ≠ some '#') : Crosses s t (s.after t) := by
  induction t generalizing s with
  | nil => exact .nil s
  | cons c t ih =>
      have hc : s.opensComment c = false := by
        by_cases hsign : c = '#'
        · have hwhite : s.afterWhite = false := by
            by_contra hwhite
            exact hhead (by simpa using hwhite) (by simp [hsign])
          simp [opensComment, hwhite]
        · simp [opensComment, hsign]
      refine .cons hc (ih hfirst.tail ?_)
      intro hwhite hsign
      obtain ⟨r, rfl⟩ := List.head?_eq_some_iff.mp hsign
      have hother := (List.isChain_cons_cons.mp hfirst).1 rfl
      have hsame : (s.step c).afterWhite = isWhite c := rfl
      rw [hsame, hother] at hwhite
      cases hwhite

theorem crosses_after_of_white {s : CommentState} {gap : Text}
    (hgap : ∀ c ∈ gap, isWhite c = true) : Crosses s gap (s.after gap) := by
  induction gap generalizing s with
  | nil => exact .nil s
  | cons c gap ih =>
      have hsign : c ≠ '#' := (ne_of_class (by decide) (hgap c (by simp))).symm
      exact .cons (by simp [opensComment, hsign]) (ih fun d hd => hgap d (by simp [hd]))

namespace FirstNote

variable {rest value note : Text} (h : FirstNote rest value note)
  (hcloses : LineKind.closesKey rest = true)

include h

theorem isComment : IsComment note := by
  obtain ⟨gap, r, hgap, hwhite, hnote⟩ := h.opens
  exact Or.inr ⟨gap, r, hgap, hwhite, hnote⟩

include hcloses

theorem crosses : Crosses .start value (CommentState.start.after value) := by
  refine crosses_after h.first fun _ hsign => ?_
  obtain ⟨r, rfl⟩ := List.head?_eq_some_iff.mp hsign
  have hmark : isWhite '#' = false := by decide
  simp [h.split, LineKind.closesKey, hmark] at hcloses

/-- Behind closed quotes the note is the comment. -/
theorem snd_splitComment_eq (hclosed : QuotesClosed value) : (splitComment rest).2 = note := by
  obtain ⟨w, hw⟩ := hclosed.exists_after true
  have hcrosses := h.crosses hcloses
  obtain ⟨gap, r, hgap, -, hnote⟩ := h.opens
  have hne : note ≠ [] := by simp [hnote]
  rw [CommentState.start, ← outside, hw] at hcrosses
  rw [h.split, splitComment_append hcrosses h.isComment, if_neg hne,
    Text.endWhite_eq_nil_iff.mpr h.edge, List.nil_append]

/-- Behind an open quote the comment begins later, if there is one. -/
theorem length_snd_splitComment_lt (hopen : ¬QuotesClosed value) :
    (splitComment rest).2.length < note.length := by
  obtain ⟨gap, r, hgap, hwhite, hnote⟩ := h.opens
  have hquote : (CommentState.start.after (value ++ gap)).isOutside = false := by
    rw [after_append, isOutside_after _ hwhite]
    exact Bool.eq_false_iff.mpr fun houtside => hopen ((quotesClosed_iff true).mpr houtside)
  have hsign : Crosses .start (value ++ gap ++ ['#'])
      ((CommentState.start.after (value ++ gap)).step '#') := by
    have hspace : Crosses (CommentState.start.after value) gap
        (CommentState.start.after (value ++ gap)) := by
      rw [after_append]
      exact crosses_after_of_white hwhite
    have hnone := opensComment_eq_false _ hquote '#'
    exact ((h.crosses hcloses).append hspace).append (.cons hnone (.nil _))
  have hrest : rest = value ++ gap ++ ['#'] ++ r := by
    simp [h.split, hnote]
  rcases exists_crosses ((CommentState.start.after (value ++ gap)).step '#') r with
    ⟨s, hnone⟩ | ⟨lead, r', s, rfl, hlead, hopens⟩
  · rw [hrest, splitComment_of_crosses (hsign.append hnone), hnote, List.length_append]
    exact Nat.add_pos_right _ (Nat.succ_pos _)
  · have hshort : (Text.endWhite lead).length ≤ lead.length :=
      (List.rtakeWhile_suffix isWhite lead).length_le
    have hmark : isWhite '#' = false := by decide
    rw [hrest, ← List.append_assoc, splitComment_numberSign (hsign.append hlead) hopens,
      List.append_assoc, List.singleton_append, Text.endWhite_append_cons hmark, hnote]
    simp
    omega

end FirstNote

end Scalar

namespace Patch

open Scalar (FirstNote QuotesClosed)

variable {t module path : Text} {i : Nat} {l : Line} {k : KeyLine}

theorem FieldAt.comment_eq (h : FieldAt t module path i l k) {rest : Text}
    (hl : l.content = k.head ++ rest) :
    LineKind.closesKey rest = true ∧ k.comment = (Scalar.splitComment rest).2 := by
  obtain ⟨front, rest', hcontent, hcloses, rfl, -⟩ := h.exists_cut
  have hhead : (KeyLine.cut (front ++ [':']) rest').head = front ++ [':'] := rfl
  rw [hhead, hcontent, List.append_assoc, List.singleton_append] at hl
  obtain ⟨-, rfl⟩ := List.cons.inj (List.append_cancel_left hl)
  exact ⟨hcloses, rfl⟩

/-- Behind the written value there is the comment and nothing else, so no longer
text is there whatever the value. -/
theorem exists_not_suffix_withValue {note : Text} (hsuffix : k.comment <:+ note)
    (hshort : k.comment.length < note.length) : ∃ v, ¬note <:+ k.withValue (wordFor k v) := by
  obtain ⟨x, rfl⟩ := hsuffix
  have hne : x ≠ [] := by
    rintro rfl
    simp at hshort
  by_contra hall
  push Not at hall
  have hlast : ∀ v, x.getLast? = (wordFor k v).getLast? := by
    intro v
    obtain ⟨p, hp⟩ := hall v
    rw [KeyLine.withValue_eq, ← List.append_assoc, ← List.append_assoc, ← List.append_assoc] at hp
    have hpast := congrArg List.getLast? (List.append_cancel_right hp)
    have hrendered : wordFor k v ≠ [] := Scalar.render_ne_nil _ v
    rwa [List.getLast?_append_of_ne_nil _ hne, List.getLast?_append_of_ne_nil _ hrendered] at hpast
  have hnull : x.getLast? = some 'l' := hlast .null
  have htrue : x.getLast? = some 'e' := hlast (.bool true)
  rw [hnull] at htrue
  exact absurd htrue (by decide)

/-- Whatever a field is set to, its line ends with the note behind the old
value: that is so exactly when the quotes in the old value are closed. -/
theorem note_survives_iff (h : FieldAt t module path i l k) {rest value note : Text}
    (hl : l.content = k.head ++ rest) (hnote : FirstNote rest value note) :
    (∀ v, ∃ u l', setField t module path v = .ok u ∧ u.lines[i]? = some l' ∧
      note <:+ l'.content) ↔ QuotesClosed value := by
  obtain ⟨hcloses, hcomment⟩ := h.comment_eq hl
  constructor
  · intro hsurvives
    by_contra hopen
    have hshort := hnote.length_snd_splitComment_lt hcloses hopen
    rw [← hcomment] at hshort
    have hsuffix : k.comment <:+ note := by
      rw [hcomment] at hshort ⊢
      exact List.suffix_of_suffix_length_le (Scalar.suffix_snd_splitComment rest)
        ⟨value, hnote.split.symm⟩ (Nat.le_of_lt hshort)
    obtain ⟨v, hlost⟩ := exists_not_suffix_withValue hsuffix hshort
    obtain ⟨u, l', hu, hl', hend⟩ := hsurvives v
    obtain ⟨u', l'', hu', hl'', hcontent⟩ := h.exists_line_setField v
    obtain rfl := Except.ok.inj (hu'.symm.trans hu)
    obtain rfl := Option.some.inj (hl''.symm.trans hl')
    rw [hcontent] at hend
    exact hlost hend
  · intro hclosed v
    obtain ⟨u, l', hu, hl', hcontent⟩ := h.exists_line_setField v
    refine ⟨u, l', hu, hl', k.head ++ (k.gapText ++ wordFor k v), ?_⟩
    rw [hcontent, KeyLine.withValue_eq, hcomment, hnote.snd_splitComment_eq hcloses hclosed]
    simp

/-- A value with a quoted word inside; a number sign without white space before
it opens nothing. -/
theorem note_survives_quoted_word :
    ∃ u l', setField "m:\n  k: say 'h i' c#  # note\n".toList "m".toList "k".toList (.int 7) =
      .ok u ∧ u.lines[1]? = some l' ∧ "  # note".toList <:+ l'.content := by
  have hfield : FieldAt "m:\n  k: say 'h i' c#  # note\n".toList "m".toList "k".toList 1
      ⟨1, 3, "  k: say 'h i' c#  # note".toList, .lf⟩
      ⟨"  k:".toList, " ".toList, "say 'h i' c#".toList, "  # note".toList⟩ :=
    ⟨⟨⟨0, 2⟩, by decide⟩, by decide, by decide⟩
  have hnote : FirstNote " say 'h i' c#  # note".toList " say 'h i' c#".toList
      "  # note".toList := by
    refine ⟨rfl, ⟨"  ".toList, " note".toList, by simp, ?_, rfl⟩, ?_, by decide⟩
    · exact List.all_eq_true.mp rfl
    · rintro c ⟨⟩
      rfl
  exact (note_survives_iff hfield (by decide) hnote).mpr (by decide) (.int 7)

/-- An apostrophe inside a word opens a quote that nothing closes: the note is
taken for a part of the value. -/
theorem note_lost_behind_apostrophe :
    setField "m:\n  k: it's  # note\n".toList "m".toList "k".toList (.bool true) =
        .ok "m:\n  k: true\n".toList ∧
      setField "m:\n  k: it is  # note\n".toList "m".toList "k".toList (.bool true) =
        .ok "m:\n  k: true  # note\n".toList := by
  decide

end Patch

end Yaml

end Marginalia
