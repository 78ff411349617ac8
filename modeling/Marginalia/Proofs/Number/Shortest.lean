import Marginalia.Number.Shortest
import Marginalia.Proofs.Number.Rounding

/-!
# The shortest decimal of a number

The search for the shortest decimal of a binary number finds one that the number
owns: on a grid that is finer than half the distance to the next number one of
the two neighbours lies in the interval, and eighteen grids lead there.
-/

namespace Marginalia

def Decimal.value (d : Decimal) : ℚ :=
  d.digits * (10 : ℚ) ^ d.exponent

/-! ## Powers and digits -/

theorem zpow_eq_div {b : ℚ} (hb : b ≠ 0) (a : Int) : b ^ a = b ^ a.toNat / b ^ (-a).toNat := by
  rw [← zpow_natCast, ← zpow_natCast, ← zpow_sub₀ hb]
  congr 1
  omega

theorem two_pow_le_ten_pow {k n : Nat} (h : k ≤ 3 * n) : 2 ^ k ≤ 10 ^ n := by
  have hpow : 2 ^ k ≤ 2 ^ (3 * n) := Nat.pow_le_pow_right Nat.two_pos h
  rw [pow_mul] at hpow
  exact hpow.trans (Nat.pow_le_pow_left (by decide) n)

theorem lt_pow_length_toDigits (n : Nat) : n < 10 ^ (Nat.toDigits 10 n).length :=
  (Nat.length_toDigits_le_iff (by decide) Nat.length_toDigits_pos).mp (Nat.le_refl _)

theorem pow_length_toDigits_le {n : Nat} (hn : n ≠ 0) :
    10 ^ ((Nat.toDigits 10 n).length - 1) ≤ n := by
  have hlength : 0 < (Nat.toDigits 10 n).length := Nat.length_toDigits_pos
  rcases Nat.eq_zero_or_pos ((Nat.toDigits 10 n).length - 1) with hone | hmore
  · rw [hone]
    exact Nat.pos_of_ne_zero hn
  · rw [← Nat.not_lt, ← Nat.length_toDigits_le_iff (by decide) hmore]
    omega

namespace Binary64

theorem le_zerosBefore {num den fuel : Nat} (h : den ≤ 10 ^ fuel * num) :
    den ≤ 10 ^ zerosBefore num den fuel * num := by
  induction fuel generalizing num with
  | zero => exact h
  | succ fuel ih =>
      rw [zerosBefore]
      split
      · next hle => simpa using hle
      · have hten : den ≤ 10 ^ fuel * (10 * num) := by
          rw [← mul_assoc, ← pow_succ]
          exact h
        have hrest := ih hten
        rw [pow_add, pow_one, mul_comm 10, mul_assoc]
        exact hrest

/-- The first digit of a quotient stands at its place, or above. -/
theorem pow_firstDigitPlace_le {num den : Nat} (hden : den ≠ 0)
    (hsize : den ≤ 10 ^ 400 * num) : (10 : ℚ) ^ firstDigitPlace num den ≤ num / den := by
  have hdenPos : (0 : ℚ) < den := by exact_mod_cast Nat.pos_of_ne_zero hden
  unfold firstDigitPlace
  split
  · next hle =>
      have hquotient : num / den ≠ 0 := (Nat.div_pos hle (Nat.pos_of_ne_zero hden)).ne'
      have hpow := pow_length_toDigits_le hquotient
      have hlength : 0 < (Nat.toDigits 10 (num / den)).length := Nat.length_toDigits_pos
      have hplace : ((Nat.toDigits 10 (num / den)).length : Int) - 1 =
          ((Nat.toDigits 10 (num / den)).length - 1 : Nat) := by omega
      rw [hplace, zpow_natCast, le_div_iff₀ hdenPos]
      exact_mod_cast (Nat.le_div_iff_mul_le (Nat.pos_of_ne_zero hden)).mp hpow
  · have hzeros := le_zerosBefore hsize
    rw [zpow_neg, zpow_natCast, inv_le_iff_one_le_mul₀ (by positivity), div_mul_eq_mul_div,
      one_le_div hdenPos, mul_comm]
    exact_mod_cast hzeros

/-! ## Grids -/

section Grid

variable {mantissa : Nat} {exponent place : Int}

theorem interval_eq (mantissa : Nat) (exponent : Int) : interval mantissa exponent =
    (4 * mantissa - gapBelow mantissa exponent, 4 * mantissa, 4 * mantissa + 2) := by
  have hpow : Nat.pow 2 52 = 2 ^ 52 := rfl
  rw [interval, gapBelow, hpow]

theorem le_iff_on_grid (n x : Nat) (exponent place : Int) :
    let unit := Nat.pow 10 place.toNat * Nat.pow 2 (-(exponent - 2)).toNat
    let value := Nat.pow 2 (exponent - 2).toNat * Nat.pow 10 (-place).toNat
    (n * unit ≤ x * value ↔ n * (10 : ℚ) ^ place ≤ x / 4 * (2 : ℚ) ^ exponent) ∧
      (x * value ≤ n * unit ↔ x / 4 * (2 : ℚ) ^ exponent ≤ n * (10 : ℚ) ^ place) := by
  have htwo : (2 : ℚ) ^ exponent =
      4 * (2 ^ (exponent - 2).toNat / 2 ^ (-(exponent - 2)).toNat) := by
    rw [← zpow_eq_div two_ne_zero, zpow_sub₀ two_ne_zero]
    norm_num
    ring
  have hup : (0 : ℚ) < 2 ^ (-(exponent - 2)).toNat := by positivity
  have hdown : (0 : ℚ) < 10 ^ (-place).toNat := by positivity
  have hx : (x : ℚ) / 4 * (2 : ℚ) ^ exponent =
      x * 2 ^ (exponent - 2).toNat / 2 ^ (-(exponent - 2)).toNat := by rw [htwo]; ring
  have hn : (n : ℚ) * (10 : ℚ) ^ place = n * 10 ^ place.toNat / 10 ^ (-place).toNat := by
    rw [zpow_eq_div (by norm_num) place]
    ring
  dsimp only
  rw [hx, hn, div_le_div_iff₀ hdown hup, div_le_div_iff₀ hup hdown, ← Nat.cast_le (α := ℚ),
    ← Nat.cast_le (α := ℚ)]
  simp only [Nat.pow_eq]
  push_cast
  rw [mul_assoc, mul_assoc]
  exact ⟨Iff.rfl, Iff.rfl⟩

theorem lt_iff_on_grid (n x : Nat) (exponent place : Int) :
    let unit := Nat.pow 10 place.toNat * Nat.pow 2 (-(exponent - 2)).toNat
    let value := Nat.pow 2 (exponent - 2).toNat * Nat.pow 10 (-place).toNat
    (n * unit < x * value ↔ n * (10 : ℚ) ^ place < x / 4 * (2 : ℚ) ^ exponent) ∧
      (x * value < n * unit ↔ x / 4 * (2 : ℚ) ^ exponent < n * (10 : ℚ) ^ place) := by
  obtain ⟨hle, hge⟩ := le_iff_on_grid n x exponent place
  dsimp only
  rw [← Nat.not_le, ← not_le, ← Nat.not_le, ← not_le, hle, hge]
  exact ⟨Iff.rfl, Iff.rfl⟩

/-- On a grid the two neighbours of the number are tried. -/
theorem exists_onGrid?_eq (hmantissa : mantissa ≠ 0) (exponent place : Int) :
    ∃ (inside : Nat → Bool) (lower : Nat) (nearer : Bool),
      (∀ n, inside n = true ↔ Owns mantissa exponent (n * (10 : ℚ) ^ place)) ∧
      (mantissa * (2 : ℚ) ^ exponent < (lower + 1 : Nat) * (10 : ℚ) ^ place ∧
        lower * (10 : ℚ) ^ place ≤ mantissa * (2 : ℚ) ^ exponent) ∧
      onGrid? mantissa exponent place =
        if inside lower then
          if inside (lower + 1) ∧ nearer then some (lower + 1) else some lower
        else if inside (lower + 1) then some (lower + 1)
        else none := by
  let unit := Nat.pow 10 place.toNat * Nat.pow 2 (-(exponent - 2)).toNat
  let value := Nat.pow 2 (exponent - 2).toNat * Nat.pow 10 (-place).toNat
  let low := 4 * mantissa - gapBelow mantissa exponent
  let lower := 4 * mantissa * value / unit
  let inside (n : Nat) : Bool :=
    if mantissa % 2 = 0 then
      decide (low * value ≤ n * unit) && decide (n * unit ≤ (4 * mantissa + 2) * value)
    else decide (low * value < n * unit) && decide (n * unit < (4 * mantissa + 2) * value)
  have hunit : 0 < unit := Nat.mul_pos (Nat.pow_pos (by decide)) (Nat.pow_pos (by decide))
  have hlow : (low : ℚ) / 4 = mantissa - gapBelow mantissa exponent / 4 := by
    have hgap : gapBelow mantissa exponent ≤ 4 * mantissa := by
      unfold gapBelow
      split <;> omega
    simp only [low]
    rw [Nat.cast_sub hgap]
    push_cast
    ring
  have hmid : ((4 * mantissa : Nat) : ℚ) / 4 = mantissa := by push_cast; ring
  have hhigh : ((4 * mantissa + 2 : Nat) : ℚ) / 4 = mantissa + 2 / 4 := by push_cast; ring
  refine ⟨inside, lower, decide (2 * (4 * mantissa * value) ≥ (lower + (lower + 1)) * unit),
    fun n => ?_, ?_, ?_⟩
  · have hlowLe := (le_iff_on_grid n low exponent place).2
    have hhighLe := (le_iff_on_grid n (4 * mantissa + 2) exponent place).1
    have hlowLt := (lt_iff_on_grid n low exponent place).2
    have hhighLt := (lt_iff_on_grid n (4 * mantissa + 2) exponent place).1
    rw [hlow] at hlowLe hlowLt
    rw [hhigh] at hhighLe hhighLt
    simp only [inside, Owns]
    split
    · next heven =>
        rw [Bool.and_eq_true, decide_eq_true_eq, decide_eq_true_eq, hlowLe, hhighLe]
        tauto
    · next hodd =>
        rw [Bool.and_eq_true, decide_eq_true_eq, decide_eq_true_eq, hlowLt, hhighLt]
        exact ⟨fun h => ⟨h.1.le, h.2.le, fun _ => h⟩, fun h => h.2.2 hodd⟩
  · have hfloor : lower * unit ≤ 4 * mantissa * value := Nat.div_mul_le_self _ _
    have hceil : 4 * mantissa * value < (lower + 1) * unit := by
      rw [mul_comm (lower + 1)]
      exact Nat.lt_mul_div_succ _ hunit
    have hlowerLe := (le_iff_on_grid lower (4 * mantissa) exponent place).1.mp hfloor
    have hupperLt := (lt_iff_on_grid (lower + 1) (4 * mantissa) exponent place).2.mp hceil
    rw [hmid] at hlowerLe hupperLt
    exact ⟨hupperLt, hlowerLe⟩
  · rw [onGrid?, interval_eq]
    simp only [decide_eq_true_eq]
    rfl

theorem owns_of_onGrid? (hmantissa : mantissa ≠ 0) {n : Nat}
    (h : onGrid? mantissa exponent place = some n) :
    Owns mantissa exponent (n * (10 : ℚ) ^ place) := by
  obtain ⟨inside, lower, nearer, hinside, -, hgrid⟩ := exists_onGrid?_eq hmantissa exponent place
  rw [hgrid] at h
  split_ifs at h with hlower hupper hupper
  · obtain rfl := Option.some.inj h
    exact (hinside _).mp hupper.1
  · obtain rfl := Option.some.inj h
    exact (hinside _).mp hlower
  · obtain rfl := Option.some.inj h
    exact (hinside _).mp hupper

/-- On a fine grid the neighbour above the number lies in its interval. -/
theorem exists_onGrid? (hmantissa : mantissa ≠ 0)
    (hfine : 2 * (10 : ℚ) ^ place < (2 : ℚ) ^ exponent) :
    ∃ n, onGrid? mantissa exponent place = some n := by
  obtain ⟨inside, lower, nearer, hinside, ⟨habove, hbelow⟩, hgrid⟩ :=
    exists_onGrid?_eq hmantissa exponent place
  have hupper : inside (lower + 1) = true := by
    rw [hinside]
    have hpow : 0 < (2 : ℚ) ^ exponent := zpow_pos two_pos exponent
    have hgap : (0 : ℚ) ≤ gapBelow mantissa exponent := Nat.cast_nonneg _
    have hlow : (mantissa - gapBelow mantissa exponent / 4) * (2 : ℚ) ^ exponent <
        (lower + 1 : Nat) * (10 : ℚ) ^ place := by nlinarith
    have hhigh : ((lower + 1 : Nat) : ℚ) * (10 : ℚ) ^ place <
        (mantissa + 2 / 4) * (2 : ℚ) ^ exponent := by
      push_cast
      linarith
    exact ⟨hlow.le, hhigh.le, fun _ => ⟨hlow, hhigh⟩⟩
  rw [hgrid]
  split_ifs <;> exact ⟨_, rfl⟩

/-- The search finds a decimal of the number when it comes to a fine grid. -/
theorem owns_searchGrids (hmantissa : mantissa ≠ 0) {fuel k : Nat} (hk : k < fuel)
    (hfine : 2 * (10 : ℚ) ^ (place - k) < (2 : ℚ) ^ exponent) :
    Owns mantissa exponent (searchGrids mantissa exponent place fuel).value := by
  induction fuel generalizing place k with
  | zero => exact absurd hk (Nat.not_lt_zero k)
  | succ fuel ih =>
      rw [searchGrids]
      split
      · next n hn => exact owns_of_onGrid? hmantissa hn
      · next hnone =>
          cases k with
          | zero =>
              have hfine : 2 * (10 : ℚ) ^ place < 2 ^ exponent := by simpa using hfine
              obtain ⟨n, hn⟩ := exists_onGrid? hmantissa hfine
              rw [hnone] at hn
              cases hn
          | succ k =>
              have hplace : place - ((k + 1 : Nat) : Int) = place - 1 - k := by push_cast; ring
              rw [hplace] at hfine
              exact ih (Nat.lt_of_succ_lt_succ hk) hfine

end Grid

/-! ## The shortest decimal -/

theorem value_stripZeros (digits : Nat) (exponent : Int) (fuel : Nat) :
    (stripZeros digits exponent fuel).value = (Decimal.mk digits exponent).value := by
  induction fuel generalizing digits exponent with
  | zero => rfl
  | succ fuel ih =>
      rw [stripZeros]
      split
      · next h =>
          have hdigits : (digits : ℚ) = 10 * (digits / 10 : Nat) := by
            have hten : digits = 10 * (digits / 10) := by omega
            exact_mod_cast hten
          rw [ih, Decimal.value, Decimal.value, zpow_add_one₀ (by norm_num), hdigits]
          ring
      · rfl

/-- The shortest decimal of a number is one of those that are rounded to it. -/
theorem owns_shortest {mantissa : Nat} {exponent : Int} (hmantissa : mantissa ≠ 0)
    (hcanonical : IsCanonical mantissa exponent) :
    Owns mantissa exponent (shortest mantissa exponent).value := by
  obtain ⟨num, den, hquotient, hden, hsize, hvalue⟩ : ∃ num den : Nat,
      (if 0 ≤ exponent then (mantissa * Nat.pow 2 exponent.toNat, 1)
        else (mantissa, Nat.pow 2 (-exponent).toNat)) = (num, den) ∧ den ≠ 0 ∧
      den ≤ 10 ^ 400 * num ∧ (num / den : ℚ) = mantissa * (2 : ℚ) ^ exponent := by
    rw [zpow_eq_div two_ne_zero exponent]
    split
    · next h =>
        have hnone : (-exponent).toNat = 0 := by omega
        have hpos : 0 < mantissa * Nat.pow 2 exponent.toNat :=
          Nat.mul_pos (Nat.pos_of_ne_zero hmantissa) (Nat.pow_pos Nat.two_pos)
        have hten : ∀ n : Nat, 0 < 10 ^ n := fun n => Nat.pow_pos (by decide)
        refine ⟨_, _, rfl, one_ne_zero, ?_, ?_⟩
        · exact Nat.le_trans hpos (Nat.le_mul_of_pos_left _ (hten 400))
        · rw [hnone]
          simp
    · next h =>
        have hnone : exponent.toNat = 0 := by omega
        have hleast := hcanonical.least
        refine ⟨_, _, rfl, Nat.ne_of_gt (Nat.pow_pos Nat.two_pos), ?_, ?_⟩
        · have hlimit : (-exponent).toNat ≤ 3 * 400 := by
            rw [leastExponent] at hleast
            omega
          have hpow := two_pow_le_ten_pow hlimit
          exact hpow.trans (Nat.le_mul_of_pos_right _ (Nat.pos_of_ne_zero hmantissa))
        · rw [hnone]
          simp [div_eq_mul_inv]
  have hplace := pow_firstDigitPlace_le hden hsize
  rw [hvalue] at hplace
  have hfine : 2 * (10 : ℚ) ^ (firstDigitPlace num den - (17 : Nat)) < (2 : ℚ) ^ exponent := by
    have hshort : (mantissa : ℚ) < 2 ^ 53 := by exact_mod_cast hcanonical.short
    have hpow : 0 < (2 : ℚ) ^ exponent := zpow_pos two_pos exponent
    rw [zpow_sub₀ (by norm_num), zpow_natCast]
    have hless : (10 : ℚ) ^ firstDigitPlace num den < 2 ^ 53 * (2 : ℚ) ^ exponent :=
      hplace.trans_lt (by gcongr)
    rw [mul_div_assoc', div_lt_iff₀ (by positivity)]
    nlinarith
  have hfound := owns_searchGrids hmantissa (show 17 < 20 by decide) hfine
  rw [shortest, hquotient]
  dsimp only
  rw [value_stripZeros]
  exact hfound

end Binary64

end Marginalia
