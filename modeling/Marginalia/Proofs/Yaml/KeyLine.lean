import Marginalia.Proofs.Number.Layout
import Marginalia.Proofs.Text.OneLine
import Marginalia.Proofs.Yaml.KeyToken
import Marginalia.Proofs.Yaml.Rendered

/-!
# Key lines and their values

A line that opens with a key is cut at four seams: through the colon, the white
space behind it, the value and the comment.  Another value leaves the first and
the last part where they are, so the line still opens with that key, at the same
indentation and with its colon at the same place.
-/

namespace Marginalia

namespace Layout

theorem exponential_ne_nil (digits : Text) (place : Int) : exponential digits place ≠ [] := by
  rcases digits with _ | ⟨d, _ | ⟨e, ds⟩⟩
  · simp [exponential]
  · simp [exponential]
  · simp [exponential]

theorem positional_ne_nil (digits : Text) (place : Int) : positional digits place ≠ [] := by
  unfold positional
  split
  · simp
  · simp

theorem write_ne_nil {l : Layout} (hnan : l.nan ≠ []) (hinfinity : l.infinity ≠ [])
    (x : Binary64) : l.write x ≠ [] := by
  cases x with
  | nan => exact hnan
  | infinite negative => cases negative <;> simp [write, hinfinity]
  | finite negative mantissa exponent =>
      cases negative with
      | true => simp [write]
      | false =>
          simp only [write, Bool.false_eq_true, if_false]
          split
          · simp
          · split
            · exact positional_ne_nil _ _
            · exact exponential_ne_nil _ _

end Layout

namespace Yaml

open CharClass

namespace LineKind

theorem isWhite_colon : isWhite ':' = false := by decide

theorem ofBody_eq_key_iff {indent colon : Nat} {body name : Text} :
    ofBody indent body = .key name colon ↔
      Text.isBlank body = false ∧ body.head? ≠ some '#' ∧ dash? body = none ∧
        ∃ token through, keyToken? body = some (token, through) ∧
          name = unquoteKey token ∧ colon = indent + through.size - 1 := by
  unfold ofBody
  by_cases hblank : Text.isBlank body = true
  · simp [hblank]
  · by_cases hcomment : body.head? = some '#'
    · simp [hcomment, hblank]
    · simp only [hblank, hcomment, if_false, Bool.false_eq_true]
      cases hdash : dash? body with
      | none =>
          cases htoken : keyToken? body with
          | none =>
              simp only [Option.getD_none, htoken]
              split <;> simp
          | some found =>
              obtain ⟨token, through⟩ := found
              simp only [Option.getD_none, htoken, List.isEmpty_nil, if_true, List.nil_append,
                key.injEq]
              constructor
              · rintro ⟨hname, hcolon⟩
                exact ⟨trivial, hcomment, trivial, token, through, rfl, hname.symm, hcolon.symm⟩
              · rintro ⟨-, -, -, _, _, hfound, rfl, rfl⟩
                obtain ⟨rfl, rfl⟩ := Prod.mk.inj (Option.some.inj hfound)
                exact ⟨rfl, rfl⟩
      | some found =>
          obtain ⟨lead, rest⟩ := found
          have hlead : lead.isEmpty = false := by
            unfold dash? at hdash
            split at hdash
            · dsimp only at hdash
              split at hdash
              · cases hdash
              · obtain ⟨rfl, -⟩ := Prod.mk.inj (Option.some.inj hdash)
                rfl
            · cases hdash
          cases htoken : keyToken? rest with
          | none =>
              simp only [Option.getD_some, htoken]
              split <;> simp
          | some found => simp [htoken, hlead]

theorem isBlank_append_colon (front rest : Text) :
    Text.isBlank (front ++ ':' :: rest) = false := by
  simp [Text.isBlank, isWhite_colon]

/-- Whether a text with a colon opens with a dash is decided before the
colon. -/
theorem dash?_eq_none_iff {front rest : Text} (hfront : front ≠ []) :
    dash? (front ++ ':' :: rest) = none ↔
      ∀ gap, front.head? = some '-' → front.tail.head? = some gap → isWhite gap = false := by
  rcases front with _ | ⟨c, _ | ⟨d, front⟩⟩
  · exact absurd rfl hfront
  · by_cases hc : c = '-'
    · simp [dash?, hc, isWhite_colon]
    · simp [dash?, hc]
  · by_cases hc : c = '-'
    · by_cases hd : isWhite d = true
      · simp [dash?, hc, hd]
      · simp [dash?, hc, hd]
    · simp [dash?, hc]

/-- A body opens with a key by its text up to the colon. -/
theorem exists_of_ofBody_eq_key {indent colon : Nat} {body name : Text}
    (h : ofBody indent body = .key name colon) :
    ∃ front rest, front ≠ [] ∧ body = front ++ ':' :: rest ∧ closesKey rest = true ∧
      colon = indent + Text.size front ∧
      ∀ rest', closesKey rest' = true →
        ofBody indent (front ++ ':' :: rest') = .key name colon := by
  obtain ⟨-, hcomment, hdash, token, through, htoken, hname, hcolon⟩ := ofBody_eq_key_iff.mp h
  obtain ⟨front, rest, hfront, rfl, hcloses, rfl, hread⟩ := exists_of_keyToken?_eq_some htoken
  have hsize : Text.size (front ++ [':']) = Text.size front + 1 := by
    rw [Text.size_append]
    rfl
  have hhead : ∀ rest', (front ++ ':' :: rest').head? = front.head? := by
    intro rest'
    cases front with
    | nil => exact absurd rfl hfront
    | cons c front => rfl
  refine ⟨front, rest, hfront, rfl, hcloses, by omega, ?_⟩
  intro rest' hcloses'
  apply ofBody_eq_key_iff.mpr
  refine ⟨isBlank_append_colon front rest', ?_, ?_, token, _, hread rest' hcloses', hname, hcolon⟩
  · rwa [hhead, ← hhead rest]
  · exact (dash?_eq_none_iff hfront).mpr ((dash?_eq_none_iff hfront).mp hdash)

end LineKind

namespace OutlineLine

open LineKind (closesKey)

theorem ofLine_of_content {l : Line} {n : Nat} {body : Text}
    (hl : l.content = List.replicate n ' ' ++ body) (hbody : body.head? ≠ some ' ') :
    ofLine l = ⟨l, n, LineKind.ofBody n body⟩ := by
  have hnone : body.takeWhile (· == ' ') = [] := by
    cases body with
    | nil => rfl
    | cons c body => simpa using hbody
  have hspaces : l.content.takeWhile (· == ' ') = List.replicate n ' ' := by
    rw [hl, List.takeWhile_append_of_pos (by simp), hnone, List.append_nil]
  have hdrop : l.content.drop n = body := by
    rw [hl]
    exact List.drop_left' (List.length_replicate)
  simp only [ofLine, hspaces, List.length_replicate, hdrop]

theorem exists_indent (t : Text) :
    ∃ n body, t = List.replicate n ' ' ++ body ∧ body.head? ≠ some ' ' := by
  induction t with
  | nil => exact ⟨0, [], rfl, by simp⟩
  | cons c t ih =>
      by_cases hc : c = ' '
      · obtain ⟨n, body, rfl, hbody⟩ := ih
        exact ⟨n + 1, body, by rw [hc, List.replicate_succ, List.cons_append], hbody⟩
      · exact ⟨0, c :: t, rfl, by simpa using hc⟩

theorem size_replicate_space (n : Nat) : Text.size (List.replicate n ' ') = n := by
  induction n with
  | zero => rfl
  | succ n ih =>
      rw [List.replicate_succ, Text.size_cons, ih, Nat.add_comm]
      rfl

/-- A line that opens with a key does so by its text up to the colon. -/
theorem exists_of_kind_eq_key {l : Line} {name : Text} {colon : Nat}
    (h : (ofLine l).kind = .key name colon) :
    ∃ front rest, l.content = front ++ ':' :: rest ∧ closesKey rest = true ∧
      colon = Text.size front ∧
      ∀ (l' : Line) (rest' : Text), l'.content = front ++ ':' :: rest' → closesKey rest' = true →
        (ofLine l').indent = (ofLine l).indent ∧ (ofLine l').kind = .key name colon := by
  obtain ⟨n, body, hl, hbody⟩ := exists_indent l.content
  rw [ofLine_of_content hl hbody] at h ⊢
  obtain ⟨front, rest, hfront, rfl, hcloses, hcolon, hread⟩ := LineKind.exists_of_ofBody_eq_key h
  refine ⟨List.replicate n ' ' ++ front, rest, ?_, hcloses, ?_, ?_⟩
  · rw [hl, List.append_assoc]
  · rw [hcolon, Text.size_append, size_replicate_space]
  · intro l' rest' hl' hcloses'
    have hbody' : (front ++ ':' :: rest').head? ≠ some ' ' := by
      cases front with
      | nil => exact absurd rfl hfront
      | cons c front => exact hbody
    rw [ofLine_of_content (by rw [hl', List.append_assoc]) hbody']
    exact ⟨rfl, hread rest' hcloses'⟩

end OutlineLine

namespace Scalar

/-! ## Written values -/

theorem prefix_trimEnd (t : Text) : Text.trimEnd t <+: t :=
  ⟨Text.endWhite t, Text.trimEnd_append_endWhite t⟩

theorem prefix_beforeComment (s : CommentState) (t : Text) : beforeComment s t <+: t := by
  induction t generalizing s with
  | nil => exact List.prefix_refl []
  | cons c t ih =>
      rw [beforeComment]
      split
      · exact List.nil_prefix
      · exact List.prefix_cons_inj c |>.mpr (ih _)

theorem prefix_fst_splitComment (t : Text) : (splitComment t).1 <+: t :=
  (prefix_trimEnd _).trans (prefix_beforeComment _ t)

theorem suffix_snd_splitComment (t : Text) : (splitComment t).2 <:+ t := by
  simp only [splitComment]
  split
  · exact List.drop_suffix _ t
  · exact List.nil_suffix

theorem render_ne_nil (quote : Quote) (value : Scalar) : value.render quote ≠ [] := by
  have hdouble : ∀ s, doubleQuoted s ≠ [] := by simp [doubleQuoted]
  cases value with
  | null => simp [render]
  | bool b => cases b <;> simp [render]
  | int i => exact Text.ofInt_ne_nil i
  | float x => exact Layout.write_ne_nil (by simp [floatLayout]) (by simp [floatLayout]) x
  | str s =>
      cases quote with
      | double => exact hdouble s
      | single =>
          simp only [render, singleQuoted]
          split
          · exact hdouble s
          · simp
      | plain =>
          simp only [render]
          split
          · exact hdouble s
          · next hquotes =>
              intro hs
              simp [hs, needsQuotes] at hquotes

end Scalar

namespace KeyLine

theorem take_sub_length_trimStart (t : Text) :
    t.take (t.length - (Text.trimStart t).length) = t.takeWhile isWhite := by
  have ht : t.takeWhile isWhite ++ Text.trimStart t = t := List.takeWhile_append_dropWhile
  have hlength := congrArg List.length ht
  rw [List.length_append] at hlength
  have htake : t.length - (Text.trimStart t).length = (t.takeWhile isWhite).length := by omega
  rw [htake]
  exact (List.prefix_iff_eq_take.mp (List.takeWhile_prefix isWhite)).symm

theorem exists_kind_eq_key {l : OutlineLine} {k : KeyLine} (hk : ofLine? l = some k) :
    ∃ name colon, l.kind = .key name colon := by
  unfold ofLine? at hk
  split at hk
  · next name colon hkind => exact ⟨name, colon, hkind⟩
  · cases hk

/-- A line, cut behind the colon that ends `head`. -/
def cut (head rest : Text) : KeyLine :=
  let (raw, comment) := Scalar.splitComment rest
  { head, gap := raw.takeWhile CharClass.isWhite, value := Text.trimStart raw, comment }

theorem ofLine?_eq_cut {l : OutlineLine} {name front rest : Text}
    (hl : l.line.content = front ++ ':' :: rest) (hkind : l.kind = .key name (Text.size front)) :
    ofLine? l = some (cut (front ++ [':']) rest) := by
  have hcontent : l.line.content = (front ++ [':']) ++ rest := by simp [hl]
  have hsize : Text.size front + 1 = Text.size (front ++ [':']) := by
    rw [Text.size_append]
    rfl
  rw [ofLine?, hkind]
  simp only [hcontent, hsize, Text.before_size_append, Text.after_size_append,
    take_sub_length_trimStart]
  rfl

theorem withValue_of_content {l : OutlineLine} {k : KeyLine} {name front rest : Text}
    (hl : l.line.content = front ++ ':' :: rest) (hkind : l.kind = .key name (Text.size front))
    (hk : ofLine? l = some k) :
    k.comment = (Scalar.splitComment rest).2 ∧
      ∃ gap, gap ≠ [] ∧ (∀ c ∈ gap, isWhite c = true) ∧ (∀ c ∈ gap, c = ' ' ∨ c ∈ rest) ∧
        ∀ value, k.withValue value = front ++ ':' :: (gap ++ value ++ k.comment) := by
  obtain rfl := Option.some.inj (hk.symm.trans (ofLine?_eq_cut hl hkind))
  refine ⟨rfl, ?_⟩
  by_cases hgap : ((Scalar.splitComment rest).1.takeWhile isWhite).isEmpty = true
  · refine ⟨[' '], by simp, by simp; decide, by simp, ?_⟩
    intro value
    simp [withValue, cut, hgap]
  · refine ⟨(Scalar.splitComment rest).1.takeWhile isWhite, by simpa using hgap, ?_, ?_, ?_⟩
    · intro c hc
      exact List.mem_takeWhile_imp hc
    · intro c hc
      have hraw := (List.takeWhile_prefix isWhite).subset hc
      exact Or.inr ((Scalar.prefix_fst_splitComment rest).subset hraw)
    · intro value
      simp [withValue, cut, hgap]

/-- A line with another text between its colon and its comment ends as it did,
or with that text. -/
theorem getLast?_append_comment {front rest comment between : Text} (hsuffix : comment <:+ rest)
    (hrest : (front ++ ':' :: rest).getLast? ≠ some '\r')
    (hbetween : between.getLast? ≠ some '\r') :
    (front ++ ':' :: (between ++ comment)).getLast? ≠ some '\r' := by
  by_cases hnone : comment = []
  · by_cases hempty : between = []
    · simp [hnone, hempty]
    · rwa [hnone, List.append_nil, List.append_cons, List.getLast?_append_of_ne_nil _ hempty]
  · obtain ⟨written, rfl⟩ := hsuffix
    rw [← List.cons_append, ← List.append_assoc, List.getLast?_append_of_ne_nil _ hnone] at hrest ⊢
    exact hrest

/-- Between the colon and the comment of a line anything may stand that is no
line ending. -/
theorem admits_append_comment {t front rest comment : Text} {l : Line} (hmem : l ∈ t.lines)
    (hl : l.content = front ++ ':' :: rest) (hsuffix : comment <:+ rest) (between : Text)
    (hlf : '\n' ∉ between) (hcr : between.getLast? ≠ some '\r') :
    l.Admits (front ++ ':' :: (between ++ comment)) := by
  have hold := Text.not_mem_content_of_mem_lines hmem
  rw [hl] at hold
  refine ⟨by simp, ?_, fun hterminator => ?_⟩
  · intro hmem
    simp only [List.mem_append, List.mem_cons] at hmem hold
    rcases hmem with hmem | hmem | hmem | hmem
    · exact hold (Or.inl hmem)
    · cases hmem
    · exact hlf hmem
    · exact hold (Or.inr (Or.inr (hsuffix.subset hmem)))
  · refine getLast?_append_comment hsuffix ?_ hcr
    rw [← hl]
    exact Text.getLast?_content_of_lf hmem hterminator

/-- A word without control characters fits into the place of the value of a key
line. -/
theorem admits_withValue_of_noControl {t : Text} {l : OutlineLine} {k : KeyLine}
    {name front rest : Text} (hmem : l.line ∈ t.lines) (hl : l.line.content = front ++ ':' :: rest)
    (hkind : l.kind = .key name (Text.size front)) (hk : ofLine? l = some k) (word : Text)
    (hne : word ≠ []) (hcontrol : Text.NoControl word) : l.line.Admits (k.withValue word) := by
  obtain ⟨hcomment, gap, -, -, hgap, hwith⟩ := withValue_of_content hl hkind hk
  have hlf := Text.not_mem_content_of_mem_lines hmem
  rw [hl] at hlf
  rw [hwith]
  refine admits_append_comment hmem hl ?_ _ ?_ ?_
  · rw [hcomment]
    exact Scalar.suffix_snd_splitComment rest
  · intro hmem
    rcases List.mem_append.mp hmem with hmem | hmem
    · rcases hgap _ hmem with hspace | hrest
      · cases hspace
      · exact hlf (by simp [hrest])
    · exact absurd (hcontrol _ hmem) (by decide)
  · rw [List.getLast?_append_of_ne_nil _ hne]
    intro hcr
    exact absurd (hcontrol _ (List.mem_of_getLast? hcr)) (by decide)

/-- A rendered scalar fits into the place of the value of a key line. -/
theorem admits_withValue {t : Text} {l : OutlineLine} {k : KeyLine} {name front rest : Text}
    (hmem : l.line ∈ t.lines) (hl : l.line.content = front ++ ':' :: rest)
    (hkind : l.kind = .key name (Text.size front)) (hk : ofLine? l = some k)
    (quote : Quote) (value : Scalar) :
    l.line.Admits (k.withValue (value.render quote)) :=
  admits_withValue_of_noControl hmem hl hkind hk _ (Scalar.render_ne_nil quote value)
    (Scalar.noControl_render quote value)

end KeyLine

end Yaml

end Marginalia
