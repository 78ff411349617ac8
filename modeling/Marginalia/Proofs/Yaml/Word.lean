import Marginalia.Proofs.Number.Layout
import Marginalia.Proofs.Yaml.Appended
import Marginalia.Proofs.Yaml.Bare
import Marginalia.Proofs.Yaml.EntryValue
import Marginalia.Proofs.Yaml.KeyLine
import Marginalia.Yaml.Lookup

/-!
# Values that are written as one word

A null, a truth value and an integer are written without white space and without
a colon, and a plain scalar with that spelling is read as the same value.  A
word that begins with a letter is read as a string, unless it spells one of
them.
-/

namespace Marginalia

namespace Text

/-! ## Decimal digits -/

theorem exists_ofNat_eq_cons (n : Nat) : ∃ d r, ofNat n = d :: r ∧ d.isDigit = true := by
  obtain ⟨d, r, hcons⟩ := List.exists_cons_of_ne_nil (ofNat_ne_nil n)
  exact ⟨d, r, hcons, isDigit_of_mem_ofNat (hcons ▸ List.mem_cons_self)⟩

theorem toNat?_ofNat (n : Nat) : toNat? (ofNat n) = some n := by
  have hdigit : ∀ d < 10, CharClass.hexValue? d.digitChar = some d := by decide
  have hfold : ∀ n, (ofNat n).foldl (fun acc c => acc.bind fun n =>
      (CharClass.hexValue? c).bind fun d => if d < 10 then some (n * 10 + d) else none) (some 0) =
        some n := by
    intro n
    induction n using Nat.strongRecOn with
    | ind n ih =>
        rw [ofNat, Nat.toDigits_eq_if (by decide)]
        split
        · next hn => simp [hdigit n hn, hn]
        · next hn =>
            have hlast : n % 10 < 10 := Nat.mod_lt n (by decide)
            have hrest := ih (n / 10) (by omega)
            rw [ofNat] at hrest
            rw [List.foldl_append, hrest]
            simp only [List.foldl_cons, List.foldl_nil, Option.bind_some, hdigit _ hlast, hlast,
              if_true, Option.some.injEq]
            omega
  have hne : (ofNat n).isEmpty = false := by simp [ofNat_ne_nil]
  rw [toNat?, toNatBase?, hne]
  exact hfold n

theorem le_of_hexValue? {c : Char} {d : Nat} (hc : c.isDigit = false)
    (hd : CharClass.hexValue? c = some d) : 10 ≤ d := by
  unfold CharClass.hexValue? at hd
  split_ifs at hd with hdigit
  · rw [isDigit_iff.mpr hdigit] at hc
    cases hc
  · have := Option.some.inj hd
    omega
  · have := Option.some.inj hd
    omega

theorem toNat?_eq_none {t : Text} {c : Char} (hc : c ∈ t) (hdigit : c.isDigit = false) :
    toNat? t = none := by
  let step (acc : Option Nat) (c : Char) : Option Nat := acc.bind fun n =>
    (CharClass.hexValue? c).bind fun d => if d < 10 then some (n * 10 + d) else none
  have hother : ∀ acc, step acc c = none := by
    intro acc
    simp only [step, Option.bind_eq_none_iff]
    intro n _ d hd
    rw [if_neg (Nat.not_lt.mpr (le_of_hexValue? hdigit hd))]
  have hnone : ∀ t : Text, t.foldl step none = none := by
    intro t
    induction t with
    | nil => rfl
    | cons d t ih => exact ih
  have hfold : ∀ acc, t.foldl step acc = none := by
    induction t with
    | nil => cases hc
    | cons d t ih =>
        intro acc
        rw [List.foldl_cons]
        rcases List.mem_cons.mp hc with rfl | hc
        · rw [hother, hnone]
        · exact ih hc _
  rw [toNat?, toNatBase?]
  split
  · rfl
  · exact hfold _

theorem eq_nil_of_ofNat_eq_cons_zero {n : Nat} {r : Text} (h : ofNat n = '0' :: r) : r = [] := by
  induction n using Nat.strongRecOn generalizing r with
  | ind n ih =>
      rw [ofNat, Nat.toDigits_eq_if (by decide)] at h
      split at h
      · exact (List.cons.inj h).2.symm
      · next hn =>
          obtain ⟨c, q, hq⟩ := List.exists_cons_of_ne_nil (ofNat_ne_nil (n / 10))
          have hlead : ofNat (n / 10) = '0' :: q := by
            have hq' : Nat.toDigits 10 (n / 10) = c :: q := hq
            rw [hq', List.cons_append] at h
            rw [hq, (List.cons.inj h).1]
          have hzero := toNat?_ofNat (n / 10)
          rw [hlead, ih (n / 10) (by omega) hlead] at hzero
          have hvalue : (0 : Nat) = n / 10 := Option.some.inj hzero
          omega

end Text

namespace Yaml

namespace Value

/-- A text of numeral characters is none of the words for a null, a truth value,
an infinity or the not-a-number. -/
theorem any_toList_beq_eq_false {t : Text} (ht : ∀ c ∈ t, isNumeralChar c = true)
    {words : List String} (hwords : words.all (·.toList.any (!isNumeralChar ·)) = true) :
    words.any (·.toList == t) = false := by
  rw [List.any_eq_false]
  intro s hs hsame
  obtain ⟨c, hc, hother⟩ := List.any_eq_true.mp (List.all_eq_true.mp hwords s hs)
  rw [beq_iff_eq] at hsame
  rw [hsame] at hc
  rw [ht c hc] at hother
  cases hother

theorem isNull_of_isNumeralChar {t : Text} (ht : ∀ c ∈ t, isNumeralChar c = true) :
    isNull t = false :=
  any_toList_beq_eq_false ht (by decide)

theorem bool?_of_isNumeralChar {t : Text} (ht : ∀ c ∈ t, isNumeralChar c = true) :
    bool? t = none := by
  rw [bool?, any_toList_beq_eq_false ht (by decide), any_toList_beq_eq_false ht (by decide)]
  rfl

theorem radixNat?_eq_none {t : Text} (ht : ∀ c ∈ t, isNumeralChar c = true) :
    radixNat? t = none := by
  have hmark : ∀ c ∈ t, c ≠ 'x' ∧ c ≠ 'o' ∧ c ≠ 'b' := by
    intro c hc
    refine ⟨?_, ?_, ?_⟩ <;>
    · rintro rfl
      exact absurd (ht _ hc) (by decide)
  unfold radixNat?
  split
  · exact absurd rfl (hmark 'x' (by simp)).1
  · exact absurd rfl (hmark 'o' (by simp)).2.1
  · exact absurd rfl (hmark 'b' (by simp)).2.2
  · rfl

theorem exists_of_hasLeadingZero {t : Text} (h : hasLeadingZero t = true) :
    ∃ d ds, (∀ c ∈ d :: ds, c.isDigit = true) ∧
      (t = '0' :: d :: ds ∨ t = '-' :: '0' :: d :: ds ∨ t = '+' :: '0' :: d :: ds) := by
  unfold hasLeadingZero at h
  dsimp only at h
  split at h
  · next d ds hdigits =>
      refine ⟨d, ds, List.all_eq_true.mp h, ?_⟩
      split at hdigits
      · rw [hdigits]
        exact Or.inr (Or.inl rfl)
      · rw [hdigits]
        exact Or.inr (Or.inr rfl)
      · exact Or.inl hdigits
  · cases h

theorem hasLeadingZero_ofInt (i : Int) : hasLeadingZero (Text.ofInt i) = false := by
  have hlead : ∀ d ds, Text.ofNat i.natAbs ≠ '0' :: d :: ds := by
    intro d ds h
    have hnil := Text.eq_nil_of_ofNat_eq_cons_zero h
    cases hnil
  rw [Bool.eq_false_iff]
  intro hzero
  obtain ⟨d, ds, -, h⟩ := exists_of_hasLeadingZero hzero
  unfold Text.ofInt at h
  split at h
  · rcases h with h | h | h
    · cases (List.cons.inj h).1
    · exact hlead d ds (List.cons.inj h).2
    · cases (List.cons.inj h).1
  · rcases h with h | h | h
    · exact hlead d ds h
    · have hdash : '-' ∈ Text.ofNat i.natAbs := by simp [h]
      exact absurd (Text.isDigit_of_mem_ofNat hdash) (by decide)
    · have hplus : '+' ∈ Text.ofNat i.natAbs := by simp [h]
      exact absurd (Text.isDigit_of_mem_ofNat hplus) (by decide)

theorem integer?_ofInt (i : Int) : integer? (Text.ofInt i) = some i := by
  have hradix := radixNat?_eq_none (t := Text.ofNat i.natAbs) fun c hc =>
    isNumeralChar_of_isDigit (Text.isDigit_of_mem_ofNat hc)
  have hzero := hasLeadingZero_ofInt i
  have hdecimal := Text.toNat?_ofNat i.natAbs
  unfold Text.ofInt at hzero ⊢
  split at hzero
  · next hi =>
      rw [if_pos hi]
      have habs : -(i.natAbs : Int) = i := by omega
      simp only [integer?, hradix, hzero, hdecimal]
      exact congrArg some habs
  · next hi =>
      have hsign : ∀ c r, Text.ofNat i.natAbs = c :: r → c.isDigit = true := fun c r h =>
        Text.isDigit_of_mem_ofNat (by rw [h]; exact List.mem_cons_self ..)
      rw [if_neg hi]
      unfold integer?
      extract_lets magnitude?
      have hmagnitude : magnitude? (Text.ofNat i.natAbs) = some i.natAbs := by
        simp [magnitude?, hradix, hzero, hdecimal]
      split
      · next r h => exact absurd (hsign _ _ h) (by decide)
      · next r h => exact absurd (hsign _ _ h) (by decide)
      · have habs : (i.natAbs : Int) = i := by omega
        rw [hmagnitude]
        exact congrArg some habs

theorem ofPlain_ofInt {i : Int} (hleast : leastInt ≤ i) (hgreatest : i ≤ greatestInt) :
    ofPlain (Text.ofInt i) = .ok (int i) := by
  have hchars : ∀ c ∈ Text.ofInt i, isNumeralChar c = true := fun _ =>
    Text.isNumeralChar_of_mem_ofInt
  have hint : ofInteger? (Text.ofInt i) = some (.ok (int i)) := by
    rw [ofInteger?, integer?_ofInt, Option.bind_some, if_pos ⟨hleast, hgreatest⟩]
  have hempty : (Text.ofInt i).isEmpty = false := by simp [Text.ofInt_ne_nil]
  rw [ofPlain, hempty, isNull_of_isNumeralChar hchars, bool?_of_isNumeralChar hchars, hint]
  rfl

/-! ## Letters -/

section Letter

variable {c : Char} {r : Text} (hc : c.isAlpha = true)

include hc

theorem ne_of_isAlpha {d : Char} (hd : d.isAlpha = false) : c ≠ d := by
  rintro rfl
  rw [hc] at hd
  cases hd

omit r in
theorem isDigit_of_isAlpha : c.isDigit = false := by
  rw [Bool.eq_false_iff]
  intro hdigit
  rw [isAlpha_iff] at hc
  rw [isDigit_iff] at hdigit
  omega

theorem ofInteger?_of_isAlpha : ofInteger? (c :: r) = none := by
  have hne : ∀ d, d.isAlpha = false → c ≠ d := fun d => ne_of_isAlpha hc
  have hradix : radixNat? (c :: r) = none := by
    have hzero := hne '0' (by decide)
    simp [radixNat?, hzero]
  have hlead : hasLeadingZero (c :: r) = false := by
    have hzero := hne '0' (by decide)
    simp [hasLeadingZero, hne '-' (by decide), hne '+' (by decide), hzero]
  have hnat : Text.toNat? (c :: r) = none :=
    Text.toNat?_eq_none (List.mem_cons_self ..) (isDigit_of_isAlpha hc)
  have hinteger : integer? (c :: r) = none := by
    simp [integer?, hne '-' (by decide), hne '+' (by decide), hradix, hlead, hnat]
  rw [ofInteger?, hinteger]
  rfl

theorem float?_of_isAlpha : float? (c :: r) = none := by
  have hne : ∀ d, d.isAlpha = false → c ≠ d := fun d => ne_of_isAlpha hc
  have hdigit : Decimal.isDigit c = false := isDigit_of_isAlpha hc
  have hdecimal : Decimal.signed? (c :: r) = none := by
    simp [Decimal.signed?, hne '-' (by decide), hne '+' (by decide), Decimal.ofText?, hdigit,
      hne '.' (by decide)]
  unfold float?
  simp [(hne '-' (by decide)).symm, hne '+' (by decide), (hne '.' (by decide)).symm, hdecimal]

/-- A word that begins with a letter is a string, unless it spells a null or a
truth value. -/
theorem ofPlain_of_isAlpha (hnull : isNull (c :: r) = false) (hbool : bool? (c :: r) = none) :
    ofPlain (c :: r) = .ok (str (c :: r)) := by
  rw [ofPlain_eq_str_iff]
  exact ⟨rfl, List.cons_ne_nil c r, hnull, hbool, ofInteger?_of_isAlpha hc,
    Or.inr (float?_of_isAlpha hc)⟩

end Letter

end Value

namespace Scalar

/-! ## Words -/

theorem isIndicator_of_isAlphanum {c : Char} (hc : c.isAlphanum = true) :
    Scan.isIndicator c = false := by
  rw [Bool.eq_false_iff]
  intro hmark
  have hnone : "-?:,[]\x7b\x7d#&*!|>'\"%@\x60".toList.all (!·.isAlphanum) = true := by decide
  have hother := List.all_eq_true.mp hnone c (List.contains_iff_mem.mp hmark)
  rw [hc] at hother
  cases hother

section NumberWord

variable {w : Text} (h : IsNumberWord w)

include h

theorem isGap_of_isNumberWord {c : Char} (hc : c ∈ w) : Source.isGap c = false := by
  rw [Bool.eq_false_iff]
  intro hgap
  rcases Source.isGap_cases hgap with rfl | rfl | rfl | rfl | rfl <;>
    exact absurd (h.chars _ hc) (by decide)

theorem colon_not_mem_of_isNumberWord : ':' ∉ w := by
  intro hc
  exact absurd (h.chars _ hc) (by decide)

theorem isControl_of_isNumberWord {c : Char} (hc : c ∈ w) : CharClass.isControl c = false := by
  have hchar := h.chars c hc
  simp only [isWordChar, Char.isAlphanum, Bool.or_eq_true, beq_iff_eq, isAlpha_iff, isDigit_iff]
    at hchar
  rw [CharClass.isControl_eq_false_iff]
  rcases hchar with (rfl | rfl) | hchar
  · decide
  · decide
  · omega

theorem isNoncharacter_of_isNumberWord {c : Char} (hc : c ∈ w) :
    Source.isNoncharacter c = false := by
  rw [Bool.eq_false_iff]
  intro hnon
  rw [Source.isNoncharacter, Bool.or_eq_true, beq_iff_eq, beq_iff_eq] at hnon
  rcases hnon with rfl | rfl <;> exact absurd (h.chars _ hc) (by decide)

theorem isAllowed_of_isNumberWord {c : Char} (hc : c ∈ w) : Source.isAllowed c = true := by
  rw [Source.isAllowed_eq (isControl_of_isNumberWord h hc), isNoncharacter_of_isNumberWord h hc]
  rfl

theorem opensBare_of_isNumberWord : opensBare w = true := by
  obtain ⟨c, r, hw, hc⟩ := h.begins
  have hindicator := isIndicator_of_isAlphanum hc
  rcases hw with rfl | rfl <;> simp [opensBare, hindicator]

end NumberWord

/-- The scalars that are written as one word, with their values. -/
inductive IsWord : Scalar → Value → Prop
  | null : IsWord .null .null
  | bool (b : Bool) : IsWord (.bool b) (.bool b)
  | int {i : Int} (hleast : Value.leastInt ≤ i) (hgreatest : i ≤ greatestInt) :
      IsWord (.int i) (.int i)

variable {value : Scalar} {v : Value} (h : IsWord value v) (quote : Quote)

include h

theorem isNumberWord_render : IsNumberWord (value.render quote) := by
  cases h with
  | null => exact ⟨List.all_eq_true.mp rfl, 'n', _, Or.inl rfl, by decide⟩
  | bool b =>
      cases b with
      | false => exact ⟨List.all_eq_true.mp rfl, 'f', _, Or.inl rfl, by decide⟩
      | true => exact ⟨List.all_eq_true.mp rfl, 't', _, Or.inl rfl, by decide⟩
  | int => exact Text.isNumberWord_ofInt _

theorem ofPlain_render : Value.ofPlain (value.render quote) = .ok v := by
  cases h with
  | null => rfl
  | bool b => cases b <;> rfl
  | int hleast hgreatest =>
      have hlimits : greatestInt ≤ Value.greatestInt := by decide
      exact Value.ofPlain_ofInt hleast (Int.le_trans hgreatest hlimits)

end Scalar

end Yaml

end Marginalia
