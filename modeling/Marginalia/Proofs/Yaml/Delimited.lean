import Marginalia.Proofs.Yaml.Comment
import Marginalia.Proofs.Yaml.Quoted

/-!
# Quoted strings delimit themselves

A string that is written between quotes is told from what follows it: the reader
of a value position takes it as a whole, whatever it holds, and cuts the comment
off behind it.  It also says which string it was written for: no control
character is in it, and with its escapes undone it is the string again.
-/

namespace Marginalia.Yaml.Scalar

open CharClass

open Text (NoControl)

/-! ## Undoing escapes -/

/-- The inside of double quotes with its escapes undone; none when a backslash
opens no escape or a double quote stands without one. -/
def unescape? : Text → Option Text
  | [] => some []
  | '\\' :: '\\' :: r => (unescape? r).map ('\\' :: ·)
  | '\\' :: '"' :: r => (unescape? r).map ('"' :: ·)
  | '\\' :: 'n' :: r => (unescape? r).map ('\n' :: ·)
  | '\\' :: 'r' :: r => (unescape? r).map ('\r' :: ·)
  | '\\' :: 't' :: r => (unescape? r).map ('\t' :: ·)
  | '\\' :: 'u' :: a :: b :: c :: d :: r =>
    (Token.hexEscape? 4 [a, b, c, d]).bind fun e => (unescape? r).map (e :: ·)
  | c :: r => if c = '\\' ∨ c = '"' then none else (unescape? r).map (c :: ·)

/-- The inside of single quotes with its doubled apostrophes undone; none when
one stands alone. -/
def halve? : Text → Option Text
  | [] => some []
  | '\'' :: '\'' :: r => (halve? r).map ('\'' :: ·)
  | c :: r => if c = '\'' then none else (halve? r).map (c :: ·)

/-- The string for which a quoted string is written. -/
def unquote? (t : Text) : Option Text :=
  match Text.unwrap? '"' t with
  | some inside => unescape? inside
  | none => (Text.unwrap? '\'' t).bind halve?

theorem unescape?_cons {c : Char} (hbackslash : c ≠ '\\') (hquote : c ≠ '"') (r : Text) :
    unescape? (c :: r) = (unescape? r).map (c :: ·) := by
  rw [unescape?]
  · rw [if_neg (by simp [hbackslash, hquote])]
  all_goals simp [hbackslash]

theorem unescape?_hex {c : Char} (hc : isControl c = true) (r : Text) :
    unescape? ('\\' :: 'u' :: (Text.hex 4 c.toNat ++ r)) = (unescape? r).map (c :: ·) := by
  obtain ⟨hlength, hread⟩ := Token.hexEscape?_hex (r := []) hc
  rw [List.append_nil] at hread
  match Text.hex 4 c.toNat, hlength, hread with
  | [d₁, d₂, d₃, d₄], _, hread =>
      simp only [List.cons_append, List.nil_append, unescape?, hread, Option.bind_some]

/-- A character is read back from between double quotes. -/
theorem unescape?_escape (c : Char) (r : Text) :
    unescape? (escape c ++ r) = (unescape? r).map (c :: ·) := by
  unfold escape
  split_ifs with hbackslash hquote hlf hcr htab hcontrol
  · rw [hbackslash]
    rfl
  · rw [hquote]
    rfl
  · rw [hlf]
    rfl
  · rw [hcr]
    rfl
  · rw [htab]
    rfl
  · exact unescape?_hex hcontrol r
  · exact unescape?_cons hbackslash hquote r

theorem unescape?_flatMap_escape (s : Text) : unescape? (s.flatMap escape) = some s := by
  induction s with
  | nil => rfl
  | cons c s ih => rw [List.flatMap_cons, unescape?_escape, ih, Option.map_some]

/-- A character is read back from between single quotes. -/
theorem halve?_doubleApostrophe (c : Char) (r : Text) :
    halve? (doubleApostrophe c ++ r) = (halve? r).map (c :: ·) := by
  unfold doubleApostrophe
  split
  · next hsingle =>
      rw [hsingle]
      rfl
  · next hsingle =>
      rw [List.singleton_append, halve?, if_neg hsingle]
      simp [hsingle]

theorem halve?_flatMap_doubleApostrophe (s : Text) :
    halve? (s.flatMap doubleApostrophe) = some s := by
  induction s with
  | nil => rfl
  | cons c s ih => rw [List.flatMap_cons, halve?_doubleApostrophe, ih, Option.map_some]

/-! ## Both kinds of quotes -/

theorem unquote?_doubleQuoted (s : Text) : unquote? (doubleQuoted s) = some s := by
  have hinside : Text.unwrap? '"' (doubleQuoted s) = some (s.flatMap escape) :=
    Text.unwrap?_eq_some_iff.mpr rfl
  rw [unquote?, hinside]
  exact unescape?_flatMap_escape s

theorem unquote?_singleQuoted (s : Text) : unquote? (singleQuoted s) = some s := by
  unfold singleQuoted
  split
  · exact unquote?_doubleQuoted s
  · have hnone : Text.unwrap? '"' ('\'' :: s.flatMap doubleApostrophe ++ ['\'']) = none := by
      rw [Option.eq_none_iff_forall_ne_some]
      intro inside hinside
      exact absurd (List.cons.inj (Text.unwrap?_eq_some_iff.mp hinside)).1 (by decide)
    have hinside : Text.unwrap? '\'' ('\'' :: s.flatMap doubleApostrophe ++ ['\'']) =
        some (s.flatMap doubleApostrophe) := Text.unwrap?_eq_some_iff.mpr rfl
    rw [unquote?, hnone, hinside]
    exact halve?_flatMap_doubleApostrophe s

theorem getLast?_quoted (s : Text) :
    (doubleQuoted s).getLast? = some '"' ∧
      ((singleQuoted s).getLast? = some '"' ∨ (singleQuoted s).getLast? = some '\'') := by
  have hdouble : (doubleQuoted s).getLast? = some '"' := List.getLast?_concat
  refine ⟨hdouble, ?_⟩
  unfold singleQuoted
  split
  · exact Or.inl hdouble
  · exact Or.inr List.getLast?_concat

/-- A text that the reader crosses behind white space is cut off as it stands
when it does not end with white space. -/
theorem splitComment_of_crosses_outside {w q note : Text} {c : Char}
    (hw : ∀ d ∈ w, isWhite d = true) (hq : Crosses (.outside true) q (.outside false))
    (hlast : q.getLast? = some c) (hc : isWhite c = false) (hnote : IsComment note) :
    splitComment (w ++ q ++ note) = (w ++ q, note) := by
  have hcrosses : Crosses .start (w ++ q) (.outside false) :=
    (crosses_white hw (Or.inr rfl)).append hq
  have hend : (w ++ q).getLast? = some c := by
    rw [List.getLast?_append, hlast]
    rfl
  have hwhite : Text.endWhite (w ++ q) = [] :=
    Text.endWhite_eq_nil_iff.mpr fun d hd => by
      rw [hend] at hd
      rwa [← Option.some.inj hd]
  have hvalue : Text.trimEnd (w ++ q) = w ++ q := by
    have hsplit := Text.trimEnd_append_endWhite (w ++ q)
    rwa [hwhite, List.append_nil] at hsplit
  rw [splitComment_append hcrosses hnote, hvalue, hwhite, List.nil_append, ite_eq_right_iff.mpr]
  rintro rfl
  rfl

/-- A string in quotes of either kind is cut off from the comment behind it,
with the white space before it and whatever it holds; it has no control
character; and with its escapes undone it is the string. -/
theorem quoted_delimits_itself (s : Text) {w note : Text} (hw : ∀ c ∈ w, isWhite c = true)
    (hnote : IsComment note) :
    ∀ q ∈ [doubleQuoted s, singleQuoted s],
      splitComment (w ++ q ++ note) = (w ++ q, note) ∧ NoControl q ∧ unquote? q = some s := by
  have hdouble : isWhite '"' = false := by decide
  have hsingle : isWhite '\'' = false := by decide
  obtain ⟨hlast, hlast'⟩ := getLast?_quoted s
  intro q hq
  rcases List.mem_pair.mp hq with rfl | rfl
  · exact ⟨splitComment_of_crosses_outside hw (crosses_doubleQuoted s true) hlast hdouble hnote,
      noControl_doubleQuoted s, unquote?_doubleQuoted s⟩
  · refine ⟨?_, noControl_singleQuoted s, unquote?_singleQuoted s⟩
    have hcrosses := crosses_singleQuoted s true
    rcases hlast' with hlast' | hlast'
    · exact splitComment_of_crosses_outside hw hcrosses hlast' hdouble hnote
    · exact splitComment_of_crosses_outside hw hcrosses hlast' hsingle hnote

/-- Quotes of both kinds, number signs and a control character, between a
no-break space and a comment. -/
theorem quoted_delimits_itself_hostile :
    (∀ c ∈ ['\u00a0'], isWhite c = true) ∧ IsComment " # it's \"x\"".toList ∧
      ∀ q ∈ [doubleQuoted "a\\' # \"b\t\x01".toList, singleQuoted "a\\' # \"b\t\x01".toList],
        splitComment (['\u00a0'] ++ q ++ " # it's \"x\"".toList) =
            (['\u00a0'] ++ q, " # it's \"x\"".toList) ∧
          NoControl q ∧ unquote? q = some "a\\' # \"b\t\x01".toList := by
  have hw : ∀ c ∈ ['\u00a0'], isWhite c = true := List.forall_mem_singleton.mpr (by decide)
  have hblank : ∀ c ∈ [' '], isWhite c = true := List.forall_mem_singleton.mpr (by decide)
  have hnote : IsComment " # it's \"x\"".toList :=
    Or.inr ⟨[' '], " it's \"x\"".toList, List.cons_ne_nil _ _, hblank, rfl⟩
  exact ⟨hw, hnote, quoted_delimits_itself "a\\' # \"b\t\x01".toList hw hnote⟩

end Marginalia.Yaml.Scalar
