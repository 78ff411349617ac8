import Marginalia.Number.Shortest
import Mathlib.Data.List.Basic

/-!
# Numbers as words

A number is written with digits, a point, an exponent and minus signs, without
white space, and behind an optional minus sign it begins with a digit.  The
words for an infinity and for the not-a-number are those of the layout.
-/

namespace Marginalia

def isNumeralChar (c : Char) : Bool :=
  c == '-' || c == '.' || c == 'e' || c.isDigit

/-- A number without its sign: it begins with a digit and has a point or an
exponent. -/
structure IsNumeral (t : Text) : Prop where
  chars : ∀ c ∈ t, isNumeralChar c = true
  begins : ∃ c r, t = c :: r ∧ c.isDigit = true
  marked : '.' ∈ t ∨ 'e' ∈ t

def isWordChar (c : Char) : Bool :=
  c == '-' || c == '.' || c.isAlphanum

/-- A word: characters of a number or of letters, with at least one letter or
digit behind a minus sign at its start. -/
structure IsNumberWord (t : Text) : Prop where
  chars : ∀ c ∈ t, isWordChar c = true
  begins : ∃ c r, (t = c :: r ∨ t = '-' :: c :: r) ∧ c.isAlphanum = true

theorem isAlpha_iff {c : Char} : c.isAlpha = true ↔
    (65 ≤ c.toNat ∧ c.toNat ≤ 90) ∨ (97 ≤ c.toNat ∧ c.toNat ≤ 122) := by
  have hupper : c.isUpper = true ↔ 65 ≤ c.toNat ∧ c.toNat ≤ 90 := decide_eq_true_iff
  have hlower : c.isLower = true ↔ 97 ≤ c.toNat ∧ c.toNat ≤ 122 :=
    Bool.and_eq_true_iff.trans (and_congr decide_eq_true_iff decide_eq_true_iff)
  rw [← hupper, ← hlower]
  exact Bool.or_eq_true_iff

theorem isDigit_iff {c : Char} : c.isDigit = true ↔ 48 ≤ c.toNat ∧ c.toNat ≤ 57 :=
  Bool.and_eq_true_iff.trans (and_congr decide_eq_true_iff decide_eq_true_iff)

theorem CharClass.isWhite_of_isDigit {c : Char} (hc : c.isDigit = true) :
    CharClass.isWhite c = false := by
  have hbounds := isDigit_iff.mp hc
  simp [CharClass.isWhite, CharClass.inRanges, CharClass.whiteRanges, CharClass.Range.holds]
  omega

theorem isNumeralChar_of_isDigit {c : Char} (hc : c.isDigit = true) : isNumeralChar c = true := by
  simp [isNumeralChar, hc]

theorem isWordChar_of_isNumeralChar {c : Char} (hc : isNumeralChar c = true) :
    isWordChar c = true := by
  simp only [isNumeralChar, Bool.or_eq_true, beq_iff_eq] at hc
  rcases hc with ((rfl | rfl) | rfl) | hc
  · decide
  · decide
  · decide
  · simp [isWordChar, Char.isAlphanum, hc]

namespace Text

theorem ofNat_ne_nil (n : Nat) : ofNat n ≠ [] :=
  Nat.toDigits_ne_nil

theorem ofInt_ne_nil (i : Int) : ofInt i ≠ [] := by
  unfold ofInt
  split
  · simp
  · exact ofNat_ne_nil _

theorem isDigit_of_mem_ofNat {n : Nat} {c : Char} (hc : c ∈ ofNat n) : c.isDigit = true :=
  Nat.isDigit_of_mem_toDigits (by decide) (by decide) hc

theorem isNumeralChar_of_mem_ofInt {i : Int} {c : Char} (hc : c ∈ ofInt i) :
    isNumeralChar c = true := by
  unfold ofInt at hc
  split at hc
  · rcases List.mem_cons.mp hc with rfl | hc
    · decide
    · exact isNumeralChar_of_isDigit (isDigit_of_mem_ofNat hc)
  · exact isNumeralChar_of_isDigit (isDigit_of_mem_ofNat hc)

theorem isNumberWord_ofInt (i : Int) : IsNumberWord (ofInt i) where
  chars c hc := isWordChar_of_isNumeralChar (isNumeralChar_of_mem_ofInt hc)
  begins := by
    obtain ⟨c, r, hcons⟩ := List.exists_cons_of_ne_nil (ofNat_ne_nil i.natAbs)
    have hc : c ∈ ofNat i.natAbs := by simp [hcons]
    have hdigit : c.isDigit = true := isDigit_of_mem_ofNat hc
    refine ⟨c, r, ?_, by rw [Char.isAlphanum, hdigit, Bool.or_true]⟩
    unfold ofInt
    split
    · exact Or.inr (congrArg ('-' :: ·) hcons)
    · exact Or.inl hcons

end Text

namespace Layout

section Digits

variable {digits : Text} (hdigits : ∀ c ∈ digits, c.isDigit = true)

include hdigits

theorem isNumeralChar_of_mem_exponential {place : Int} {c : Char}
    (hc : c ∈ exponential digits place) : isNumeralChar c = true := by
  have htail : ∀ c ∈ 'e' :: Text.ofInt place, isNumeralChar c = true := by
    intro c hc
    rcases List.mem_cons.mp hc with rfl | hc
    · decide
    · exact Text.isNumeralChar_of_mem_ofInt hc
  have hmem : c ∈ digits ∨ c = '.' ∨ c ∈ 'e' :: Text.ofInt place := by
    unfold exponential at hc
    split at hc
    · simp only [List.cons_append, List.mem_cons, List.mem_append] at hc ⊢
      tauto
    · exact (List.mem_append.mp hc).imp_right Or.inr
  rcases hmem with hc | rfl | hc
  · exact isNumeralChar_of_isDigit (hdigits c hc)
  · decide
  · exact htail c hc

theorem isNumeralChar_of_mem_positional {place : Int} {c : Char}
    (hc : c ∈ positional digits place) : isNumeralChar c = true := by
  have hmem : c ∈ digits ∨ c = '.' ∨ c = '0' := by
    unfold positional at hc
    split at hc
    · simp only [List.cons_append, List.mem_cons, List.mem_append, List.mem_replicate] at hc
      tauto
    · simp only [List.mem_append, List.mem_cons, List.mem_replicate] at hc
      rcases hc with (hc | hc) | rfl | hc
      · exact Or.inl (List.mem_of_mem_take hc)
      · exact Or.inr (Or.inr hc.2)
      · exact Or.inr (Or.inl rfl)
      · split at hc
        · exact Or.inr (Or.inr (List.mem_singleton.mp hc))
        · exact Or.inl (List.mem_of_mem_drop hc)
  rcases hmem with hc | rfl | rfl
  · exact isNumeralChar_of_isDigit (hdigits c hc)
  · decide
  · decide

theorem isNumeral_exponential (hne : digits ≠ []) (place : Int) :
    IsNumeral (exponential digits place) where
  chars _ := isNumeralChar_of_mem_exponential hdigits
  begins := by
    obtain ⟨d, ds, rfl⟩ := List.exists_cons_of_ne_nil hne
    have hd := hdigits d (List.mem_cons_self ..)
    cases ds with
    | nil => exact ⟨d, _, rfl, hd⟩
    | cons e ds => exact ⟨d, _, rfl, hd⟩
  marked := by
    right
    unfold exponential
    split <;> simp

theorem isNumeral_positional (hne : digits ≠ []) (place : Int) :
    IsNumeral (positional digits place) where
  chars _ := isNumeralChar_of_mem_positional hdigits
  begins := by
    obtain ⟨d, ds, rfl⟩ := List.exists_cons_of_ne_nil hne
    unfold positional
    split
    · exact ⟨'0', _, rfl, by decide⟩
    · exact ⟨d, _, rfl, hdigits d (List.mem_cons_self ..)⟩
  marked := by
    left
    unfold positional
    split <;> simp

end Digits

/-- A finite number without its sign. -/
def writeMagnitude (l : Layout) (mantissa : Nat) (exponent : Int) : Text :=
  if mantissa = 0 then ['0', '.', '0']
  else
    let d := Binary64.shortest mantissa exponent
    let digits := Text.ofNat d.digits
    let place := d.exponent + digits.length - 1
    if l.leastPositional ≤ place ∧ place < l.leastExponential then positional digits place
    else exponential digits place

theorem write_finite (l : Layout) (negative : Bool) (mantissa : Nat) (exponent : Int) :
    l.write (.finite negative mantissa exponent) =
      if negative then '-' :: l.writeMagnitude mantissa exponent
      else l.writeMagnitude mantissa exponent := rfl

theorem isNumeral_writeMagnitude (l : Layout) (mantissa : Nat) (exponent : Int) :
    IsNumeral (l.writeMagnitude mantissa exponent) := by
  have hdigits : ∀ c ∈ Text.ofNat (Binary64.shortest mantissa exponent).digits,
      c.isDigit = true := fun c => Text.isDigit_of_mem_ofNat
  have hne := Text.ofNat_ne_nil (Binary64.shortest mantissa exponent).digits
  unfold writeMagnitude
  dsimp only
  split
  · exact ⟨List.all_eq_true.mp rfl, ⟨'0', _, rfl, by decide⟩, Or.inl (by simp)⟩
  · split
    · exact isNumeral_positional hdigits hne _
    · exact isNumeral_exponential hdigits hne _

theorem isNumberWord_write {l : Layout} (hnan : IsNumberWord l.nan)
    (hinfinity : ∀ c ∈ l.infinity, isWordChar c = true)
    (hletter : ∃ c r, l.infinity = c :: r ∧ c.isAlphanum = true) (x : Binary64) :
    IsNumberWord (l.write x) := by
  have hsigned : ∀ (negative : Bool) (body : Text), (∀ c ∈ body, isWordChar c = true) →
      (∃ c r, body = c :: r ∧ c.isAlphanum = true) →
        IsNumberWord (if negative then '-' :: body else body) := by
    rintro negative body hbody ⟨c, r, rfl, hc⟩
    cases negative with
    | false => exact ⟨hbody, c, r, Or.inl rfl, hc⟩
    | true =>
        refine ⟨?_, c, r, Or.inr rfl, hc⟩
        simp only [if_true, List.mem_cons (b := '-')]
        rintro d (rfl | hd)
        · decide
        · exact hbody d hd
  cases x with
  | nan => exact hnan
  | infinite negative => exact hsigned negative _ hinfinity hletter
  | finite negative mantissa exponent =>
      obtain ⟨hchars, ⟨c, r, hcons, hc⟩, -⟩ := isNumeral_writeMagnitude l mantissa exponent
      rw [write_finite]
      exact hsigned negative _ (fun c hc => isWordChar_of_isNumeralChar (hchars c hc))
        ⟨c, r, hcons, by rw [Char.isAlphanum, hc, Bool.or_true]⟩

end Layout

end Marginalia
