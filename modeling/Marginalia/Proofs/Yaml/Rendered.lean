import Marginalia.Yaml.Scalar
import Mathlib.Data.List.Basic

/-!
# Rendered scalars stay on one line

Whatever a scalar holds and whichever quotes it gets, the text that is written
for it has no control character.  Numbers and words have none to begin with, a
bare string is quoted when it has one, and between double quotes every one of
them becomes an escape.  So a rendered scalar has no line break.
-/

namespace Marginalia

open CharClass

namespace CharClass

theorem ne_of_class {p : Char → Bool} {c d : Char} (hc : p c = false) (hd : p d = true) :
    c ≠ d := by
  rintro rfl
  rw [hd] at hc
  exact Bool.noConfusion hc

theorem isControl_iff {c : Char} :
    isControl c = true ↔ c.toNat ≤ 0x1F ∨ 0x7F ≤ c.toNat ∧ c.toNat ≤ 0x9F := by
  simp [isControl, inRanges, Range.holds]

theorem isControl_eq_false_iff {c : Char} :
    isControl c = false ↔ 0x1F < c.toNat ∧ (c.toNat < 0x7F ∨ 0x9F < c.toNat) := by
  rw [← Bool.not_eq_true, isControl_iff]
  omega

theorem isControl_eq_false_of_isDigit {c : Char} (h : c.isDigit = true) : isControl c = false := by
  rw [isControl_eq_false_iff]
  simp only [Char.isDigit, Bool.and_eq_true, decide_eq_true_eq, ge_iff_le,
    UInt32.le_iff_toNat_le] at h
  have hlow : 48 ≤ c.toNat := h.1
  have hhigh : c.toNat ≤ 57 := h.2
  omega

end CharClass

namespace Text

def NoControl (t : Text) : Prop :=
  ∀ c ∈ t, isControl c = false

instance (t : Text) : Decidable (NoControl t) :=
  List.decidableBAll (fun c => isControl c = false) t

@[simp] theorem noControl_nil : NoControl [] := by simp [NoControl]

@[simp] theorem noControl_cons {c : Char} {t : Text} :
    NoControl (c :: t) ↔ isControl c = false ∧ NoControl t := by
  simp [NoControl]

@[simp] theorem noControl_append {s t : Text} : NoControl (s ++ t) ↔ NoControl s ∧ NoControl t :=
  List.forall_mem_append

theorem noControl_flatMap {s : Text} {f : Char → Text} (h : ∀ c ∈ s, NoControl (f c)) :
    NoControl (s.flatMap f) := by
  intro d hd
  obtain ⟨c, hc, hd⟩ := List.mem_flatMap.mp hd
  exact h c hc d hd

theorem noControl_replicate_zero (n : Nat) : NoControl (List.replicate n '0') := by
  intro c hc
  rw [List.eq_of_mem_replicate hc]
  decide

theorem noControl_toDigits_ten (n : Nat) : NoControl (Nat.toDigits 10 n) := by
  intro c hc
  apply isControl_eq_false_of_isDigit
  exact Nat.isDigit_of_mem_toDigits (by decide) (by decide) hc

theorem noControl_toDigits_sixteen (n : Nat) : NoControl (Nat.toDigits 16 n) := by
  have hdigit : ∀ d < 16, isControl d.digitChar = false := by decide
  induction n using Nat.strongRecOn with
  | ind n ih =>
      rw [Nat.toDigits_eq_if (by decide)]
      split
      · next hn => simp [hdigit n hn]
      · next hn =>
          have hrest := ih (n / 16) (by omega)
          simp [hrest, hdigit (n % 16) (Nat.mod_lt n (by decide))]

theorem noControl_ofNat (n : Nat) : NoControl (ofNat n) :=
  noControl_toDigits_ten n

theorem noControl_ofInt (i : Int) : NoControl (ofInt i) := by
  have hdigits := noControl_ofNat i.natAbs
  unfold ofInt
  split
  · simp only [noControl_cons]
    exact ⟨by decide, hdigits⟩
  · exact hdigits

theorem noControl_hex (width n : Nat) : NoControl (hex width n) := by
  rw [hex, noControl_append]
  exact ⟨noControl_replicate_zero _, noControl_toDigits_sixteen n⟩

end Text

namespace Layout

open Text (NoControl noControl_append noControl_cons noControl_nil)

theorem noControl_exponential {digits : Text} (h : NoControl digits) (place : Int) :
    NoControl (exponential digits place) := by
  have htail : NoControl ('e' :: Text.ofInt place) := by
    rw [noControl_cons]
    exact ⟨by decide, Text.noControl_ofInt place⟩
  rcases digits with _ | ⟨d, _ | ⟨e, ds⟩⟩
  · simpa [exponential] using htail
  · exact noControl_append.mpr ⟨h, htail⟩
  · obtain ⟨hd, hrest⟩ := noControl_cons.mp h
    refine noControl_append.mpr ⟨?_, htail⟩
    simp only [noControl_cons] at hrest ⊢
    exact ⟨hd, by decide, hrest⟩

theorem noControl_positional {digits : Text} (h : NoControl digits) (place : Int) :
    NoControl (positional digits place) := by
  have hzeros := Text.noControl_replicate_zero
  unfold positional
  split
  · simp only [List.cons_append, noControl_cons, noControl_append]
    exact ⟨by decide, by decide, hzeros _, h⟩
  · have htake : NoControl (digits.take (place.toNat + 1)) :=
      fun c hc => h c (List.mem_of_mem_take hc)
    have hdrop : NoControl (digits.drop (place.toNat + 1)) :=
      fun c hc => h c (List.mem_of_mem_drop hc)
    simp only [noControl_append, noControl_cons]
    refine ⟨⟨htake, hzeros _⟩, by decide, ?_⟩
    split
    · decide
    · exact hdrop

/-- A number is written without control characters when its two words have
none. -/
theorem noControl_write {l : Layout} (hnan : NoControl l.nan) (hinfinity : NoControl l.infinity)
    (x : Binary64) : NoControl (l.write x) := by
  have hminus : isControl '-' = false := by decide
  cases x with
  | nan => exact hnan
  | infinite negative =>
      cases negative with
      | false => exact hinfinity
      | true => exact noControl_cons.mpr ⟨hminus, hinfinity⟩
  | finite negative mantissa exponent =>
      have hdigits := Text.noControl_ofNat (Binary64.shortest mantissa exponent).digits
      have hbody : NoControl (l.write (.finite false mantissa exponent)) := by
        simp only [write, Bool.false_eq_true, if_false]
        split
        · decide
        · split
          · exact noControl_positional hdigits _
          · exact noControl_exponential hdigits _
      cases negative with
      | false => exact hbody
      | true => exact noControl_cons.mpr ⟨hminus, hbody⟩

end Layout

namespace Yaml.Scalar

open Text (NoControl noControl_append noControl_cons noControl_nil)

theorem noControl_escape (c : Char) : NoControl (escape c) := by
  unfold escape
  split_ifs with hbackslash hquote hlf hcr htab hcontrol
  · decide
  · decide
  · decide
  · decide
  · decide
  · simp only [noControl_cons]
    exact ⟨by decide, by decide, Text.noControl_hex 4 c.toNat⟩
  · exact noControl_cons.mpr ⟨by simpa using hcontrol, noControl_nil⟩

theorem noControl_doubleQuoted (s : Text) : NoControl (doubleQuoted s) := by
  have hquote : isControl '"' = false := by decide
  simp only [doubleQuoted, List.cons_append, noControl_cons, noControl_append]
  exact ⟨hquote, Text.noControl_flatMap fun c _ => noControl_escape c, hquote, noControl_nil⟩

theorem noControl_doubleApostrophe {c : Char} (hc : isControl c = false) :
    NoControl (doubleApostrophe c) := by
  unfold doubleApostrophe
  split
  · next h => simpa [h] using hc
  · simpa using hc

theorem noControl_singleQuoted (s : Text) : NoControl (singleQuoted s) := by
  have hquote : isControl '\'' = false := by decide
  unfold singleQuoted
  split
  · exact noControl_doubleQuoted s
  · next hs =>
      have hnone : ∀ c ∈ s, isControl c = false := by
        simpa using hs
      simp only [List.cons_append, noControl_cons, noControl_append]
      have hinside : NoControl (s.flatMap doubleApostrophe) :=
        Text.noControl_flatMap fun c hc => noControl_doubleApostrophe (hnone c hc)
      exact ⟨hquote, hinside, hquote, noControl_nil⟩

/-- A string without a delicate character has no control character. -/
theorem noControl_of_needsQuotes_eq_false {s : Text} (h : needsQuotes s = false) : NoControl s := by
  simp only [needsQuotes, Bool.or_eq_false_iff, List.any_eq_false] at h
  intro c hc
  have hdelicate := h.2 c hc
  simp only [isDelicate, Bool.or_eq_true, not_or, Bool.not_eq_true] at hdelicate
  exact hdelicate.2

/-- No rendering of a scalar has a control character, so none breaks the line
that it stands on. -/
theorem noControl_render (quote : Quote) (value : Scalar) : NoControl (value.render quote) := by
  cases value with
  | null =>
      simp only [render]
      decide
  | bool b => cases b <;> simp only [render] <;> decide
  | int i => exact Text.noControl_ofInt i
  | float x => exact Layout.noControl_write (by decide) (by decide) x
  | str s =>
      cases quote with
      | single => exact noControl_singleQuoted s
      | double => exact noControl_doubleQuoted s
      | plain =>
          simp only [render]
          split
          · exact noControl_doubleQuoted s
          · next hquotes => exact noControl_of_needsQuotes_eq_false (by simpa using hquotes)

end Yaml.Scalar

end Marginalia
