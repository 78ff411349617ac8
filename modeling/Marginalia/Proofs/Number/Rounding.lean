import Marginalia.Number.Binary64
import Mathlib.Algebra.Order.Field.Power
import Mathlib.Data.Rat.Cast.Order
import Mathlib.Tactic.FieldSimp
import Mathlib.Tactic.Linarith
import Mathlib.Tactic.Positivity
import Mathlib.Tactic.Ring

/-!
# Rounding to a binary number

Every positive number owns an interval of rationals, and `ofRatio` rounds all of
them to it.  The numbers that `ofRatio` makes are canonical: their mantissa has
53 bits, or the exponent is the least one.
-/

namespace Marginalia

namespace Binary64

/-- The form of the numbers that `ofRatio` makes. -/
structure IsCanonical (mantissa : Nat) (exponent : Int) : Prop where
  short : mantissa < 2 ^ 53
  least : leastExponent ≤ exponent
  greatest : exponent ≤ greatestExponent
  full : 2 ^ 52 ≤ mantissa ∨ exponent = leastExponent

/-- How far below a number its interval begins, in quarters: the neighbour of a
power of two is nearer below it. -/
def gapBelow (mantissa : Nat) (exponent : Int) : Nat :=
  if mantissa = 2 ^ 52 ∧ exponent > leastExponent then 1 else 2

/-- The rationals that are rounded to a positive number; the ends are among them
when the mantissa is even. -/
def Owns (mantissa : Nat) (exponent : Int) (q : ℚ) : Prop :=
  let low := (mantissa - gapBelow mantissa exponent / 4) * (2 : ℚ) ^ exponent
  let high := (mantissa + 2 / 4) * (2 : ℚ) ^ exponent
  low ≤ q ∧ q ≤ high ∧ (mantissa % 2 ≠ 0 → low < q ∧ q < high)

/-! ## The parts of the rounding -/

theorem exists_scaled_eq (num : Nat) {den : Nat} (hden : den ≠ 0) (exponent : Int) :
    ∃ n d, scaled num den exponent = (n, d) ∧ d ≠ 0 ∧
      (n / d : ℚ) = num / den / (2 : ℚ) ^ exponent := by
  have hpow : ∀ n : Nat, (Nat.pow 2 n : Nat) ≠ 0 := fun n => Nat.ne_of_gt (Nat.pow_pos Nat.two_pos)
  unfold scaled
  split
  · next h =>
      obtain ⟨n, rfl⟩ := Int.eq_ofNat_of_zero_le h
      exact ⟨_, _, rfl, Nat.mul_ne_zero hden (hpow _), by simp [div_div]⟩
  · next h =>
      obtain ⟨n, hn⟩ := Int.eq_ofNat_of_zero_le (a := -exponent) (by omega)
      have hexponent : exponent = -(n : Int) := by omega
      refine ⟨_, _, rfl, hden, ?_⟩
      rw [hn, hexponent, zpow_neg, div_inv_eq_mul, zpow_natCast]
      simp [mul_div_right_comm]

/-- The power of two that the logarithms suggest for a quotient. -/
def guessOf (num den : Nat) : Int :=
  (num.log2 : Int) - (den.log2 : Int) - 52

/-- The logarithms leave room for one power of two. -/
theorem quotient_bounds {num den : Nat} (hnum : num ≠ 0) (hden : den ≠ 0) :
    2 ^ 51 * (2 : ℚ) ^ guessOf num den ≤ (num / den : ℚ) ∧
      (num / den : ℚ) < 2 ^ 53 * (2 : ℚ) ^ guessOf num den := by
  have htwo : (2 : ℚ) ≠ 0 := two_ne_zero
  let p : ℚ := (2 : ℚ) ^ guessOf num den
  have hp : 0 < p := zpow_pos two_pos _
  have hdenPos : (0 : ℚ) < den := by exact_mod_cast Nat.pos_of_ne_zero hden
  constructor
  · have hn : (2 : ℚ) ^ num.log2 ≤ num := by exact_mod_cast Nat.log2_self_le hnum
    have hd : (den : ℚ) ≤ 2 ^ (den.log2 + 1) := by exact_mod_cast Nat.le_of_lt Nat.lt_log2_self
    have hexact : 2 ^ 51 * p * 2 ^ (den.log2 + 1) = (2 : ℚ) ^ num.log2 := by
      simp only [p, guessOf, ← zpow_natCast, ← zpow_add₀ htwo]
      congr 1
      push_cast
      ring
    rw [le_div_iff₀ hdenPos]
    calc 2 ^ 51 * p * den ≤ 2 ^ 51 * p * 2 ^ (den.log2 + 1) := by gcongr
      _ = 2 ^ num.log2 := hexact
      _ ≤ num := hn
  · have hn : (num : ℚ) < 2 ^ (num.log2 + 1) := by exact_mod_cast Nat.lt_log2_self
    have hd : (2 : ℚ) ^ den.log2 ≤ den := by exact_mod_cast Nat.log2_self_le hden
    have hexact : (2 : ℚ) ^ (num.log2 + 1) = 2 ^ 53 * p * 2 ^ den.log2 := by
      simp only [p, guessOf, ← zpow_natCast, ← zpow_add₀ htwo]
      congr 1
      push_cast
      ring
    rw [div_lt_iff₀ hdenPos]
    calc (num : ℚ) < 2 ^ (num.log2 + 1) := hn
      _ = 2 ^ 53 * p * 2 ^ den.log2 := hexact
      _ ≤ 2 ^ 53 * p * den := by gcongr

/-- One comparison tells which of the two powers it is. -/
theorem exists_exponentOf_eq {num den : Nat} (hnum : num ≠ 0) (hden : den ≠ 0) :
    ∃ best : Int, exponentOf num den = max leastExponent best ∧
      (num / den : ℚ) < 2 ^ 53 * (2 : ℚ) ^ best ∧ 2 ^ 52 * (2 : ℚ) ^ best ≤ (num / den : ℚ) := by
  have hp : 0 < (2 : ℚ) ^ guessOf num den := zpow_pos two_pos _
  obtain ⟨hlow, hhigh⟩ := quotient_bounds hnum hden
  obtain ⟨n, d, hpair, hd, hquotient⟩ := exists_scaled_eq num hden (guessOf num den)
  have hdPos : (0 : ℚ) < d := by exact_mod_cast Nat.pos_of_ne_zero hd
  have hexponentOf : exponentOf num den = max leastExponent
      (if n < d * Nat.pow 2 52 then guessOf num den - 1 else guessOf num den) := by
    rw [guessOf] at hpair
    rw [exponentOf, hpair]
    rfl
  have hcompare : n < d * Nat.pow 2 52 ↔
      (num / den : ℚ) < 2 ^ 52 * (2 : ℚ) ^ guessOf num den := by
    have hpow : Nat.pow 2 52 = 2 ^ 52 := rfl
    have hcast : n < d * Nat.pow 2 52 ↔ (n : ℚ) < d * 2 ^ 52 := by
      rw [← Nat.cast_lt (α := ℚ), hpow]
      push_cast
      rfl
    rw [hcast, mul_comm, ← div_lt_iff₀ hdPos, hquotient, div_lt_iff₀ hp]
  by_cases hsmall : (num / den : ℚ) < 2 ^ 52 * (2 : ℚ) ^ guessOf num den
  · have hhalf : (2 : ℚ) ^ (guessOf num den - 1) = (2 : ℚ) ^ guessOf num den / 2 := by
      rw [zpow_sub_one₀ two_ne_zero]
      rfl
    refine ⟨guessOf num den - 1, by rw [hexponentOf, if_pos (hcompare.mpr hsmall)], ?_, ?_⟩
    · rw [hhalf]
      linarith
    · rw [hhalf]
      linarith
  · exact ⟨guessOf num den, by rw [hexponentOf, if_neg fun h => hsmall (hcompare.mp h)], hhigh,
      not_lt.mp hsmall⟩

/-- The mantissa of a quotient at its exponent has 53 bits, or the exponent is
the least one. -/
theorem exponentOf_spec {num den : Nat} (hnum : num ≠ 0) (hden : den ≠ 0) :
    leastExponent ≤ exponentOf num den ∧
      (num / den : ℚ) < 2 ^ 53 * (2 : ℚ) ^ exponentOf num den ∧
      (exponentOf num den = leastExponent ∨
        2 ^ 52 * (2 : ℚ) ^ exponentOf num den ≤ (num / den : ℚ)) := by
  obtain ⟨best, hexponent, hhigh, hlow⟩ := exists_exponentOf_eq hnum hden
  rw [hexponent]
  refine ⟨le_max_left _ _, ?_, ?_⟩
  · have hmono : (2 : ℚ) ^ best ≤ 2 ^ max leastExponent best :=
      zpow_le_zpow_right₀ one_le_two (le_max_right _ _)
    linarith
  · rcases max_choice leastExponent best with h | h
    · exact Or.inl h
    · rw [h]
      exact Or.inr hlow

theorem roundHalfEven_bounds (n d : Nat) :
    n / d ≤ roundHalfEven n d ∧ roundHalfEven n d ≤ n / d + 1 := by
  unfold roundHalfEven
  dsimp only
  split_ifs <;> omega

/-- A quotient is rounded to an integer from which it is half a unit away at
most; a quotient that is just a half away from two integers is rounded to the
even one. -/
theorem roundHalfEven_eq {n d m : Nat} (hd : d ≠ 0) (hlow : (m : ℚ) - 1 / 2 ≤ n / d)
    (hhigh : (n / d : ℚ) ≤ m + 1 / 2)
    (hodd : m % 2 ≠ 0 → (m : ℚ) - 1 / 2 < n / d ∧ (n / d : ℚ) < m + 1 / 2) :
    roundHalfEven n d = m := by
  have hdPos : (0 : ℚ) < d := by exact_mod_cast Nat.pos_of_ne_zero hd
  have hlow' : (2 * m : ℤ) * d - d ≤ 2 * n := by
    rw [le_div_iff₀ hdPos] at hlow
    have : (2 * m : ℚ) * d - d ≤ 2 * n := by linarith
    exact_mod_cast this
  have hhigh' : (2 * n : ℤ) ≤ 2 * m * d + d := by
    rw [div_le_iff₀ hdPos] at hhigh
    have : (2 * n : ℚ) ≤ 2 * m * d + d := by linarith
    exact_mod_cast this
  have hodd' : m % 2 ≠ 0 → (2 * m : ℤ) * d - d < 2 * n ∧ (2 * n : ℤ) < 2 * m * d + d := by
    intro hm
    obtain ⟨h₁, h₂⟩ := hodd hm
    rw [lt_div_iff₀ hdPos] at h₁
    rw [div_lt_iff₀ hdPos] at h₂
    have h₁' : (2 * m : ℚ) * d - d < 2 * n := by linarith
    have h₂' : (2 * n : ℚ) < 2 * m * d + d := by linarith
    exact ⟨by exact_mod_cast h₁', by exact_mod_cast h₂'⟩
  clear hlow hhigh hodd hdPos
  have hmod : n % d < d := Nat.mod_lt n (Nat.pos_of_ne_zero hd)
  have hdiv : (n : ℤ) = d * (n / d : ℕ) + (n % d : ℕ) := by
    exact_mod_cast (Nat.div_add_mod n d).symm
  unfold roundHalfEven
  dsimp only
  generalize n / d = q at *
  generalize n % d = r at *
  have hq : q = m ∨ q + 1 = m := by
    have h₁ : (q : ℤ) ≤ m := by nlinarith
    have h₂ : (m : ℤ) ≤ q + 1 := by nlinarith
    omega
  rcases hq with rfl | rfl
  · have hrem : (2 * r : ℤ) ≤ d := by nlinarith
    have hremOdd : q % 2 ≠ 0 → (2 * r : ℤ) < d := fun hm => by nlinarith [hodd' hm]
    split_ifs <;> omega
  · have hrem : (d : ℤ) ≤ 2 * r := by push_cast at hlow'; nlinarith
    have hremOdd : (q + 1) % 2 ≠ 0 → (d : ℤ) < 2 * r := fun hm => by
      have := hodd' hm
      push_cast at this
      nlinarith
    split_ifs <;> omega

/-! ## Rounding -/

section OfRatio

variable {num den : Nat} (hnum : num ≠ 0) (hden : den ≠ 0)

include hnum hden

/-- Rounding step by step: the exponent, the quotient at it, the mantissa, and a
carry. -/
theorem ofRatio_eq {n d mantissa : Nat} {exponent : Int} (negative : Bool)
    (hexponent : exponentOf num den = exponent) (hscaled : scaled num den exponent = (n, d))
    (hround : roundHalfEven n d = mantissa) :
    ofRatio negative num den =
      if mantissa = 2 ^ 53 then
        if exponent + 1 > greatestExponent then infinite negative
        else finite negative (2 ^ 52) (exponent + 1)
      else if exponent > greatestExponent then infinite negative
      else finite negative mantissa exponent := by
  have hlimit : Nat.pow 2 53 = 2 ^ 53 := rfl
  have hfull : Nat.pow 2 52 = 2 ^ 52 := rfl
  -- no simp here: the kernel would evaluate the logarithms to compare what it
  -- makes
  unfold ofRatio
  rw [if_neg (not_or.mpr ⟨hnum, hden⟩), hexponent]
  extract_lets found
  rw [show scaled num den found = (n, d) from hscaled]
  dsimp only
  rw [hround, hlimit, hfull]
  by_cases h : mantissa = 2 ^ 53
  · rw [if_pos h, if_pos h]
  · rw [if_neg h, if_neg h]

/-- The rounded mantissa has 53 bits, or one more that is carried, or the
exponent is the least. -/
theorem mantissa_bounds {n d : Nat} (hpair : scaled num den (exponentOf num den) = (n, d)) :
    roundHalfEven n d ≤ 2 ^ 53 ∧
      (2 ^ 52 ≤ roundHalfEven n d ∨ exponentOf num den = leastExponent) := by
  obtain ⟨n', d', hsame, hd, hquotient⟩ := exists_scaled_eq num hden (exponentOf num den)
  obtain ⟨rfl, rfl⟩ := Prod.mk.inj (hpair.symm.trans hsame)
  obtain ⟨-, hhigh, hlow⟩ := exponentOf_spec hnum hden
  have hp : 0 < (2 : ℚ) ^ exponentOf num den := zpow_pos two_pos _
  have hdPos : (0 : ℚ) < d := by exact_mod_cast Nat.pos_of_ne_zero hd
  obtain ⟨hfloor, hceil⟩ := roundHalfEven_bounds n d
  have hless : n / d < 2 ^ 53 := by
    rw [Nat.div_lt_iff_lt_mul (Nat.pos_of_ne_zero hd)]
    rw [← div_lt_iff₀ hp, ← hquotient, div_lt_iff₀ hdPos] at hhigh
    exact_mod_cast hhigh
  refine ⟨by omega, hlow.symm.imp_left fun h => ?_⟩
  have hfull : 2 ^ 52 ≤ n / d := by
    rw [Nat.le_div_iff_mul_le (Nat.pos_of_ne_zero hd)]
    rw [← le_div_iff₀ hp, ← hquotient, le_div_iff₀ hdPos] at h
    exact_mod_cast h
  exact Nat.le_trans hfull hfloor

end OfRatio

theorem isCanonical_of_ofRatio {num den mantissa : Nat} {exponent : Int} {negative sign : Bool}
    (h : ofRatio negative num den = finite sign mantissa exponent) :
    IsCanonical mantissa exponent := by
  by_cases hzero : num = 0 ∨ den = 0
  · rw [ofRatio, if_pos hzero, zero] at h
    simp only [finite.injEq] at h
    obtain ⟨-, rfl, rfl⟩ := h
    exact ⟨by decide, Int.le_refl _, by decide, Or.inr rfl⟩
  · obtain ⟨hnum, hden⟩ := not_or.mp hzero
    obtain ⟨hleast, -, -⟩ := exponentOf_spec hnum hden
    obtain ⟨n, d, hpair, -, -⟩ := exists_scaled_eq num hden (exponentOf num den)
    obtain ⟨hshort, hfull⟩ := mantissa_bounds hnum hden hpair
    rw [ofRatio_eq hnum hden negative rfl hpair rfl] at h
    split_ifs at h with hcarry hgreat hgreat
    · simp only [finite.injEq] at h
      obtain ⟨-, rfl, rfl⟩ := h
      exact ⟨by decide, Int.le_trans hleast (Int.le_add_one (Int.le_refl _)), Int.not_lt.mp hgreat,
        Or.inl (Nat.le_refl _)⟩
    · simp only [finite.injEq] at h
      obtain ⟨-, rfl, rfl⟩ := h
      exact ⟨Nat.lt_of_le_of_ne hshort hcarry, hleast, Int.not_lt.mp hgreat, hfull⟩

/-- A number in the form that `ofRatio` makes, if it is finite. -/
def IsRounded : Binary64 → Prop
  | finite _ mantissa exponent => IsCanonical mantissa exponent
  | _ => True

theorem isRounded_zero (negative : Bool) : (zero negative).IsRounded :=
  ⟨by decide, Int.le_refl _, by decide, Or.inr rfl⟩

theorem isRounded_ofRatio (negative : Bool) (num den : Nat) :
    (ofRatio negative num den).IsRounded := by
  cases h : ofRatio negative num den with
  | nan => trivial
  | infinite => trivial
  | finite sign mantissa exponent => exact isCanonical_of_ofRatio h

theorem isRounded_ofInt (i : Int) : (ofInt i).IsRounded :=
  isRounded_ofRatio _ _ _

theorem exponentOf_le (num den : Nat) :
    exponentOf num den ≤ max leastExponent (guessOf num den) := by
  have hbest : ∀ p : Prop, [Decidable p] →
      (if p then guessOf num den - 1 else guessOf num den) ≤ guessOf num den := by
    intro p _
    split <;> omega
  exact max_le_max_left leastExponent (hbest _)

/-- Far below the greatest exponent nothing is rounded to an infinity. -/
theorem isFinite_ofRatio (negative : Bool) {num den : Nat}
    (h : guessOf num den < greatestExponent) : (ofRatio negative num den).isFinite = true := by
  by_cases hzero : num = 0 ∨ den = 0
  · rw [ofRatio, if_pos hzero]
    rfl
  · obtain ⟨hnum, hden⟩ := not_or.mp hzero
    obtain ⟨n, d, hpair, -, -⟩ := exists_scaled_eq num hden (exponentOf num den)
    have hexponent : exponentOf num den < greatestExponent :=
      (exponentOf_le num den).trans_lt (max_lt (by decide) h)
    have hcarried : ¬exponentOf num den + 1 > greatestExponent := by omega
    have hbelow : ¬exponentOf num den > greatestExponent := by omega
    rw [ofRatio_eq hnum hden negative rfl hpair rfl, if_neg hcarried, if_neg hbelow]
    split <;> rfl

theorem isFinite_ofInt {i : Int} (h : i.natAbs < 2 ^ 64) : (ofInt i).isFinite = true := by
  have hlog : i.natAbs.log2 < 64 := by
    by_cases hi : i.natAbs = 0
    · rw [hi]
      decide
    · exact (Nat.log2_lt hi).mpr h
  have hone : Nat.log2 1 = 0 := rfl
  have hgreatest : greatestExponent = 971 := rfl
  refine isFinite_ofRatio _ ?_
  rw [guessOf, hone, hgreatest]
  omega

/-! ## What a number owns -/

section Owned

variable {num den mantissa : Nat} {exponent : Int} (hnum : num ≠ 0) (hden : den ≠ 0)
  (hcanonical : IsCanonical mantissa exponent) (howns : Owns mantissa exponent (num / den))

include hcanonical in
theorem cast_mantissa_le : (mantissa : ℚ) ≤ 2 ^ 53 - 1 := by
  have hle : mantissa + 1 ≤ 2 ^ 53 := hcanonical.short
  have hcast : (mantissa : ℚ) + 1 ≤ 2 ^ 53 := by exact_mod_cast hle
  linarith

theorem cast_gapBelow_le (mantissa : Nat) (exponent : Int) :
    (gapBelow mantissa exponent : ℚ) ≤ 2 := by
  unfold gapBelow
  split <;> norm_num

include hnum hden hcanonical howns

theorem exponentOf_le_of_owns : exponentOf num den ≤ exponent := by
  obtain ⟨-, hhigh, -⟩ := howns
  obtain ⟨-, -, hreach⟩ := exponentOf_spec hnum hden
  have hp : 0 < (2 : ℚ) ^ exponent := zpow_pos two_pos exponent
  have hshort := cast_mantissa_le hcanonical
  by_contra hlt
  have hnext : (2 : ℚ) ^ (exponent + 1) ≤ 2 ^ exponentOf num den :=
    zpow_le_zpow_right₀ one_le_two (by omega)
  rw [zpow_add_one₀ two_ne_zero] at hnext
  have hreach := hreach.resolve_left (by have := hcanonical.least; omega)
  nlinarith

/-- Where the exponent is a lower one, the quotient lies just below a power of
two. -/
theorem exponentOf_eq_of_lt (hlt : exponentOf num den < exponent) :
    mantissa = 2 ^ 52 ∧ gapBelow mantissa exponent = 1 ∧ exponentOf num den = exponent - 1 := by
  have htwo : (2 : ℚ) ≠ 0 := two_ne_zero
  obtain ⟨hlow, -, -⟩ := howns
  obtain ⟨hleast, hbelow, -⟩ := exponentOf_spec hnum hden
  have hp : 0 < (2 : ℚ) ^ exponent := zpow_pos two_pos exponent
  have hgap := cast_gapBelow_le mantissa exponent
  have hfull := hcanonical.full.resolve_right (by omega)
  have hfull' : (2 : ℚ) ^ 52 ≤ mantissa := by exact_mod_cast hfull
  have hprev : (2 : ℚ) ^ exponentOf num den ≤ 2 ^ (exponent - 1) :=
    zpow_le_zpow_right₀ one_le_two (by omega)
  rw [zpow_sub_one₀ htwo] at hprev
  have hpower : mantissa = 2 ^ 52 := by
    by_contra hne
    have hmore : 2 ^ 52 + 1 ≤ mantissa := by omega
    have hmore' : (2 : ℚ) ^ 52 + 1 ≤ mantissa := by exact_mod_cast hmore
    nlinarith
  have hgapOne : gapBelow mantissa exponent = 1 := if_pos ⟨hpower, by omega⟩
  refine ⟨hpower, hgapOne, ?_⟩
  subst hpower
  rw [hgapOne] at hlow
  push_cast at hlow
  by_contra hne
  have hfar : (2 : ℚ) ^ exponentOf num den ≤ 2 ^ (exponent - 1 - 1) :=
    zpow_le_zpow_right₀ one_le_two (by omega)
  rw [zpow_sub_one₀ htwo, zpow_sub_one₀ htwo] at hfar
  nlinarith

/-- Just below a power of two the mantissa is rounded up to one bit more. -/
theorem roundHalfEven_of_lt (hlt : exponentOf num den < exponent) {n d : Nat} (hd : d ≠ 0)
    (hquotient : (n / d : ℚ) = num / den / (2 : ℚ) ^ exponentOf num den) :
    roundHalfEven n d = 2 ^ 53 := by
  obtain ⟨rfl, hgap, hfound⟩ := exponentOf_eq_of_lt hnum hden hcanonical howns hlt
  obtain ⟨hlow, -, -⟩ := howns
  obtain ⟨-, hbelow, -⟩ := exponentOf_spec hnum hden
  have hp : 0 < (2 : ℚ) ^ exponent := zpow_pos two_pos exponent
  have hhalf : (2 : ℚ) ^ exponentOf num den = 2 ^ exponent / 2 := by
    rw [hfound, zpow_sub_one₀ two_ne_zero]
    rfl
  rw [hhalf] at hquotient hbelow
  rw [hgap] at hlow
  push_cast at hlow
  apply roundHalfEven_eq hd
  · rw [hquotient, le_div_iff₀ (by positivity)]
    push_cast
    linarith
  · rw [hquotient, div_le_iff₀ (by positivity)]
    push_cast
    linarith
  · intro h
    exact absurd (by decide) h

omit hnum hden hcanonical in
theorem roundHalfEven_of_owns (hexponent : exponentOf num den = exponent) {n d : Nat} (hd : d ≠ 0)
    (hquotient : (n / d : ℚ) = num / den / (2 : ℚ) ^ exponentOf num den) :
    roundHalfEven n d = mantissa := by
  obtain ⟨hlow, hhigh, hodd⟩ := howns
  have hp : 0 < (2 : ℚ) ^ exponent := zpow_pos two_pos exponent
  have hgap := cast_gapBelow_le mantissa exponent
  rw [hexponent] at hquotient
  apply roundHalfEven_eq hd
  · rw [hquotient, le_div_iff₀ hp]
    nlinarith
  · rw [hquotient, div_le_iff₀ hp]
    linarith
  · intro h
    obtain ⟨h₁, h₂⟩ := hodd h
    constructor
    · rw [hquotient, lt_div_iff₀ hp]
      nlinarith
    · rw [hquotient, div_lt_iff₀ hp]
      linarith

theorem ofRatio_of_owns (negative : Bool) :
    ofRatio negative num den = finite negative mantissa exponent := by
  obtain ⟨n, d, hpair, hd, hquotient⟩ := exists_scaled_eq num hden (exponentOf num den)
  rcases Int.lt_or_eq_of_le (exponentOf_le_of_owns hnum hden hcanonical howns) with hlt | hsame
  · have hround := roundHalfEven_of_lt hnum hden hcanonical howns hlt hd hquotient
    obtain ⟨rfl, -, hfound⟩ := exponentOf_eq_of_lt hnum hden hcanonical howns hlt
    have hnext : exponentOf num den + 1 = exponent := by omega
    rw [ofRatio_eq hnum hden negative rfl hpair hround, if_pos rfl, hnext,
      if_neg (Int.not_lt.mpr hcanonical.greatest)]
  · have hround := roundHalfEven_of_owns howns hsame hd hquotient
    rw [ofRatio_eq hnum hden negative hsame (hsame ▸ hpair) hround,
      if_neg (Nat.ne_of_lt hcanonical.short), if_neg (Int.not_lt.mpr hcanonical.greatest)]

end Owned

end Binary64

end Marginalia
