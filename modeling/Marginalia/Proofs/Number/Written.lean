import Marginalia.Proofs.Number.Layout
import Marginalia.Proofs.Number.Shortest

/-!
# Written numbers that are read back

The decimal that a layout writes is read as a decimal of the same value,
wherever the point stands, and its value is rounded to the number that was
written.
-/

namespace Marginalia

namespace Decimal

/-! ## Digits -/

theorem digitsFrom_append (acc : Nat) (ds es : Text) :
    digitsFrom acc (ds ++ es) = digitsFrom (digitsFrom acc ds) es :=
  List.foldl_append

theorem digitsFrom_zeros (acc n : Nat) :
    digitsFrom acc (List.replicate n '0') = acc * 10 ^ n := by
  induction n generalizing acc with
  | zero => simp [digitsFrom]
  | succ n ih =>
      have hstep : digitsFrom acc (List.replicate (n + 1) '0') =
          digitsFrom (10 * acc) (List.replicate n '0') := rfl
      rw [hstep, ih, pow_succ]
      ring

theorem digitsFrom_ofNat (n : Nat) : digitsFrom 0 (Text.ofNat n) = n := by
  have hdigit : ∀ d < 10, d.digitChar.toNat - '0'.toNat = d := by decide
  induction n using Nat.strongRecOn with
  | ind n ih =>
      rw [Text.ofNat, Nat.toDigits_eq_if (by decide)]
      split
      · next hn => simpa [digitsFrom] using hdigit n hn
      · next hn =>
          have hrest := ih (n / 10) (by omega)
          rw [Text.ofNat] at hrest
          rw [digitsFrom_append, hrest]
          have hlast := hdigit (n % 10) (Nat.mod_lt n (by decide))
          simp only [digitsFrom, List.foldl_cons, List.foldl_nil, hlast]
          omega

/-! ## Numerals -/

section Numeral

variable {whole part : Text} (hwhole : ∀ c ∈ whole, c.isDigit = true)
  (hpart : ∀ c ∈ part, c.isDigit = true)

include hwhole in
theorem takeWhile_digits (rest : Text) (hrest : ∀ c ∈ rest.head?, c.isDigit = false) :
    (whole ++ rest).takeWhile isDigit = whole ∧ (whole ++ rest).dropWhile isDigit = rest := by
  have hall : ∀ c ∈ whole, isDigit c = true := hwhole
  rw [List.takeWhile_append_of_pos hall, List.dropWhile_append_of_pos hall]
  cases rest with
  | nil => simp
  | cons c rest =>
      have hc : isDigit c = false := hrest c rfl
      simp [hc]

theorem exponent?_of_unsigned {c : Char} {r : Text} (hminus : c ≠ '-') (hplus : c ≠ '+') :
    exponent? (c :: r) =
      if !(c :: r).all isDigit then none else some (digitsFrom 0 (c :: r) : Int) := by
  unfold exponent?
  split
  next negative ds h =>
    split at h
    · next hcons => exact absurd (List.cons.inj hcons).1 hminus
    · next hcons => exact absurd (List.cons.inj hcons).1 hplus
    · simp only [Prod.mk.injEq] at h
      obtain ⟨rfl, rfl⟩ := h
      rfl

theorem exponent?_ofInt (place : Int) : exponent? (Text.ofInt place) = some place := by
  have hdigits : ∀ c ∈ Text.ofNat place.natAbs, c.isDigit = true := fun _ =>
    Text.isDigit_of_mem_ofNat
  have hempty : (Text.ofNat place.natAbs).isEmpty = false := by simp [Text.ofNat_ne_nil]
  have hall : (Text.ofNat place.natAbs).all isDigit = true := List.all_eq_true.mpr hdigits
  have hvalue := digitsFrom_ofNat place.natAbs
  unfold Text.ofInt
  split
  · next hneg =>
      have habs : -(place.natAbs : Int) = place := by omega
      rw [exponent?]
      simp only [hempty, hall, hvalue]
      exact congrArg some habs
  · next hneg =>
      have habs : (place.natAbs : Int) = place := by omega
      obtain ⟨c, r, hcons⟩ := List.exists_cons_of_ne_nil (Text.ofNat_ne_nil place.natAbs)
      have hc : c.isDigit = true := hdigits c (by simp [hcons])
      have hsign : c ≠ '-' ∧ c ≠ '+' := by
        constructor <;>
        · rintro rfl
          exact absurd hc (by decide)
      rw [hcons] at hall hvalue ⊢
      rw [exponent?_of_unsigned hsign.1 hsign.2, hall, hvalue]
      exact congrArg some habs

include hwhole hpart

theorem ofText?_point (hne : whole ≠ []) :
    ofText? (whole ++ '.' :: part) =
      some ⟨digitsFrom 0 (whole ++ part), -(part.length : Int)⟩ := by
  obtain ⟨htake, hdrop⟩ := takeWhile_digits hwhole ('.' :: part) (by simp)
  obtain ⟨htakePart, hdropPart⟩ := takeWhile_digits hpart [] (by simp)
  rw [List.append_nil] at htakePart hdropPart
  have hempty : whole.isEmpty = false := by simpa using hne
  simp [ofText?, htake, hdrop, htakePart, hdropPart, hempty, digitsFrom_append]

theorem ofText?_point_exponent (hne : whole ≠ []) (place : Int) :
    ofText? (whole ++ '.' :: (part ++ 'e' :: Text.ofInt place)) =
      some ⟨digitsFrom 0 (whole ++ part), place - part.length⟩ := by
  obtain ⟨htake, hdrop⟩ := takeWhile_digits hwhole
    ('.' :: (part ++ 'e' :: Text.ofInt place)) (by simp)
  obtain ⟨htakePart, hdropPart⟩ := takeWhile_digits hpart ('e' :: Text.ofInt place) (by simp)
  have hempty : whole.isEmpty = false := by simpa using hne
  simp [ofText?, htake, hdrop, htakePart, hdropPart, hempty, digitsFrom_append, exponent?_ofInt]

omit hpart in
theorem ofText?_exponent (hne : whole ≠ []) (place : Int) :
    ofText? (whole ++ 'e' :: Text.ofInt place) = some ⟨digitsFrom 0 whole, place⟩ := by
  obtain ⟨htake, hdrop⟩ := takeWhile_digits hwhole ('e' :: Text.ofInt place) (by simp)
  have hempty : whole.isEmpty = false := by simpa using hne
  simp [ofText?, htake, hdrop, hempty, exponent?_ofInt, digitsFrom]

end Numeral

end Decimal

namespace Decimal

/-! ## Rounding a decimal -/

/-- What a number owns lies well within the powers of ten that are told
apart. -/
theorem bounds_of_owns {q : ℚ} {mantissa : Nat} {exponent : Int} (hmantissa : mantissa ≠ 0)
    (hcanonical : Binary64.IsCanonical mantissa exponent)
    (howns : Binary64.Owns mantissa exponent q) :
    (10 : ℚ) ^ (-400 : Int) ≤ q ∧ q < (10 : ℚ) ^ (400 : Int) := by
  have hone : (1 : ℚ) ≤ mantissa := by exact_mod_cast Nat.pos_of_ne_zero hmantissa
  have hshort : (mantissa : ℚ) ≤ 2 ^ 53 - 1 := by
    have hle : (mantissa : ℚ) + 1 ≤ 2 ^ 53 := by exact_mod_cast hcanonical.short
    linarith
  have hgap : (Binary64.gapBelow mantissa exponent : ℚ) ≤ 2 := by
    unfold Binary64.gapBelow
    split <;> norm_num
  have hten : ∀ n : Nat, (10 : ℚ) ^ (n : Int) = ((10 ^ n : Nat) : ℚ) := fun n => by
    rw [zpow_natCast]
    push_cast
    rfl
  constructor
  · have hleast : ((2 : ℚ) ^ 1074)⁻¹ ≤ 2 ^ exponent := by
      have hmono : (2 : ℚ) ^ (-(1074 : Nat) : Int) ≤ 2 ^ exponent :=
        zpow_le_zpow_right₀ one_le_two hcanonical.least
      rwa [zpow_neg, zpow_natCast] at hmono
    have hhalf : ((2 : ℚ) ^ 1075)⁻¹ = ((2 : ℚ) ^ 1074)⁻¹ / 2 := by
      rw [pow_succ (2 : ℚ) 1074, mul_inv, div_eq_mul_inv]
    have hlow : ((2 : ℚ) ^ 1075)⁻¹ ≤ q := by
      have hpos : 0 < (2 : ℚ) ^ exponent := zpow_pos two_pos exponent
      have hbound : (2 : ℚ) ^ exponent / 2 ≤ q := by nlinarith [howns.1]
      exact hhalf.trans_le ((div_le_div_of_nonneg_right hleast two_pos.le).trans hbound)
    have hpow : (2 : ℚ) ^ 1075 ≤ ((10 ^ 400 : Nat) : ℚ) := by
      have hnat : 2 ^ 1075 ≤ 10 ^ 400 := two_pow_le_ten_pow (by decide)
      exact_mod_cast hnat
    rw [show (-400 : Int) = -((400 : Nat) : Int) from rfl, zpow_neg, hten]
    exact (inv_anti₀ (by positivity) hpow).trans hlow
  · have hgreatest : (2 : ℚ) ^ exponent ≤ 2 ^ 971 := by
      have hmono : (2 : ℚ) ^ exponent ≤ 2 ^ ((971 : Nat) : Int) :=
        zpow_le_zpow_right₀ one_le_two hcanonical.greatest
      rwa [zpow_natCast] at hmono
    have hhigh : q < (2 : ℚ) ^ 1024 := by
      have hpos : 0 < (2 : ℚ) ^ exponent := zpow_pos two_pos exponent
      calc q < 2 ^ 53 * (2 : ℚ) ^ exponent := by nlinarith [howns.2.1]
        _ ≤ 2 ^ 53 * 2 ^ 971 := mul_le_mul_of_nonneg_left hgreatest (by positivity)
        _ = 2 ^ 1024 := (pow_add 2 53 971).symm
    have hpow : (2 : ℚ) ^ 1024 ≤ ((10 ^ 400 : Nat) : ℚ) := by
      have hnat : 2 ^ 1024 ≤ 10 ^ 400 := two_pow_le_ten_pow (by decide)
      exact_mod_cast hnat
    rw [show (400 : Int) = ((400 : Nat) : Int) from rfl, hten]
    exact hhigh.trans_le hpow

theorem toBinary64_of_owns {d : Decimal} {mantissa : Nat} {exponent : Int} (negative : Bool)
    (hmantissa : mantissa ≠ 0) (hcanonical : Binary64.IsCanonical mantissa exponent)
    (howns : Binary64.Owns mantissa exponent d.value) :
    d.toBinary64 negative = .finite negative mantissa exponent := by
  have hten : (10 : ℚ) ≠ 0 := by norm_num
  have hone : (1 : ℚ) < 10 := by norm_num
  obtain ⟨hlow, hhigh⟩ := bounds_of_owns hmantissa hcanonical howns
  have hdigits : d.digits ≠ 0 := by
    intro hzero
    rw [value, hzero, Nat.cast_zero, zero_mul] at hlow
    exact absurd hlow (not_le.mpr (by positivity))
  obtain ⟨places, hlength⟩ : ∃ n, (Nat.toDigits 10 d.digits).length = n := ⟨_, rfl⟩
  have hplaces : 0 < places := hlength ▸ Nat.length_toDigits_pos
  have hpow : 0 < (10 : ℚ) ^ d.exponent := by positivity
  have habove : -400 ≤ d.exponent + places := by
    have hless : (d.digits : ℚ) < 10 ^ places := by
      rw [← hlength]
      exact_mod_cast lt_pow_length_toDigits d.digits
    have hvalue : d.value < (10 : ℚ) ^ (d.exponent + places) := by
      rw [value, zpow_add₀ hten, zpow_natCast, mul_comm]
      gcongr
    exact ((zpow_lt_zpow_iff_right₀ hone).mp (hlow.trans_lt hvalue)).le
  have hbelow : d.exponent + places ≤ 400 := by
    have hle : (10 : ℚ) ^ (places - 1) ≤ d.digits := by
      rw [← hlength]
      exact_mod_cast pow_length_toDigits_le hdigits
    have hvalue : (10 : ℚ) ^ (d.exponent + (places - 1 : Nat)) ≤ d.value := by
      rw [value, zpow_add₀ hten, zpow_natCast, mul_comm]
      gcongr
    have hless := (zpow_lt_zpow_iff_right₀ hone).mp (hvalue.trans_lt hhigh)
    omega
  rw [toBinary64]
  simp only [hlength, if_neg hdigits, if_neg (Int.not_lt.mpr hbelow),
    if_neg (Int.not_lt.mpr habove)]
  have hvalue : d.value = d.digits * (10 ^ d.exponent.toNat / 10 ^ (-d.exponent).toNat) := by
    rw [value, zpow_eq_div hten]
  split
  · next hexponent =>
      have hnone : (-d.exponent).toNat = 0 := by omega
      have hpowNe : Nat.pow 10 d.exponent.toNat ≠ 0 := Nat.ne_of_gt (Nat.pow_pos (by decide))
      refine Binary64.ofRatio_of_owns (Nat.mul_ne_zero hdigits hpowNe) one_ne_zero hcanonical ?_
        negative
      rw [hvalue, hnone] at howns
      simpa using howns
  · next hexponent =>
      have hnone : d.exponent.toNat = 0 := by omega
      have hpowNe : Nat.pow 10 (-d.exponent).toNat ≠ 0 := Nat.ne_of_gt (Nat.pow_pos (by decide))
      refine Binary64.ofRatio_of_owns hdigits hpowNe hcanonical ?_ negative
      rw [hvalue, hnone] at howns
      simpa [div_eq_mul_inv] using howns

theorem isRounded_toBinary64 (negative : Bool) (d : Decimal) :
    (d.toBinary64 negative).IsRounded := by
  unfold toBinary64
  extract_lets places
  split
  · exact Binary64.isRounded_zero negative
  · split
    · trivial
    · split
      · exact Binary64.isRounded_zero negative
      · split <;> exact Binary64.isRounded_ofRatio negative _ _

theorem isRounded_of_signed? {t : Text} {x : Binary64} (h : signed? t = some x) : x.IsRounded := by
  have hmap : ∀ (negative : Bool) (r : Text),
      (ofText? r).map (toBinary64 negative) = some x → x.IsRounded := by
    intro negative r hr
    obtain ⟨d, -, rfl⟩ := Option.map_eq_some_iff.mp hr
    exact isRounded_toBinary64 negative d
  unfold signed? at h
  split at h
  · exact hmap true _ h
  · exact hmap false _ h
  · exact hmap false _ h

end Decimal

/-! ## Layouts -/

namespace Layout

section Digits

variable {digits : Text} (hdigits : ∀ c ∈ digits, c.isDigit = true) (hne : digits ≠ [])

include hdigits

include hne in
theorem ofText?_exponential (place : Int) :
    ∃ d, Decimal.ofText? (exponential digits place) = some d ∧
      d.value = Decimal.digitsFrom 0 digits * (10 : ℚ) ^ (place + 1 - digits.length) := by
  obtain ⟨c, r, rfl⟩ := List.exists_cons_of_ne_nil hne
  have hc : ∀ x ∈ [c], x.isDigit = true := fun x hx =>
    hdigits x (List.mem_singleton.mp hx ▸ List.mem_cons_self ..)
  have hr : ∀ x ∈ r, x.isDigit = true := fun x hx => hdigits x (List.mem_cons_of_mem c hx)
  cases r with
  | nil =>
      refine ⟨_, Decimal.ofText?_exponent hc (List.cons_ne_nil c []) place, ?_⟩
      rw [Decimal.value]
      simp
  | cons e r =>
      have htext : exponential (c :: e :: r) place =
          [c] ++ '.' :: (e :: r ++ 'e' :: Text.ofInt place) := rfl
      rw [htext]
      refine ⟨_, Decimal.ofText?_point_exponent hc hr (List.cons_ne_nil c []) place, ?_⟩
      rw [Decimal.value]
      have hplace : place - ((e :: r).length : Int) = place + 1 - ((c :: e :: r).length : Int) := by
        simp only [List.length_cons]
        omega
      rw [hplace]
      rfl

omit hdigits in
theorem isDigit_of_mem_zeros {n : Nat} {c : Char} (hc : c ∈ List.replicate n '0') :
    c.isDigit = true := by
  rw [List.eq_of_mem_replicate hc]
  decide

/-- The first digit stands behind the point. -/
theorem ofText?_positional_of_neg {place : Int} (hplace : place < 0) :
    ∃ d, Decimal.ofText? (positional digits place) = some d ∧
      d.value = Decimal.digitsFrom 0 digits * (10 : ℚ) ^ (place + 1 - digits.length) := by
  let zeros := List.replicate ((-place).toNat - 1) '0'
  have htext : positional digits place = ['0'] ++ '.' :: (zeros ++ digits) := by
    rw [positional, if_pos hplace]
    rfl
  have hpart : ∀ c ∈ zeros ++ digits, c.isDigit = true := fun c hc =>
    (List.mem_append.mp hc).elim isDigit_of_mem_zeros (hdigits c)
  have hvalue : Decimal.digitsFrom 0 (['0'] ++ (zeros ++ digits)) =
      Decimal.digitsFrom 0 digits := by
    rw [← List.append_assoc, ← List.replicate_one, List.replicate_append_replicate,
      Decimal.digitsFrom_append, Decimal.digitsFrom_zeros, zero_mul]
  have hlength : -((zeros ++ digits).length : Int) = place + 1 - digits.length := by
    rw [List.length_append, List.length_replicate]
    omega
  refine ⟨_, htext ▸ Decimal.ofText?_point (List.forall_mem_singleton.mpr (by decide)) hpart
    (List.cons_ne_nil _ _), ?_⟩
  rw [Decimal.value, hvalue, hlength]

/-- The point stands among the digits. -/
theorem ofText?_positional_of_lt {place : Int} (hplace : 0 ≤ place)
    (hlong : place.toNat + 1 < digits.length) :
    ∃ d, Decimal.ofText? (positional digits place) = some d ∧
      d.value = Decimal.digitsFrom 0 digits * (10 : ℚ) ^ (place + 1 - digits.length) := by
  have hpart : (digits.drop (place.toNat + 1)).isEmpty = false := by simpa using hlong
  have htext : positional digits place =
      digits.take (place.toNat + 1) ++ '.' :: digits.drop (place.toNat + 1) := by
    rw [positional, if_neg (Int.not_lt.mpr hplace)]
    simp only [hpart, Nat.sub_eq_zero_of_le hlong.le]
    simp
  have hwhole : digits.take (place.toNat + 1) ≠ [] := by
    rw [← List.length_pos_iff, List.length_take]
    omega
  have hlength : -((digits.drop (place.toNat + 1)).length : Int) = place + 1 - digits.length := by
    rw [List.length_drop]
    omega
  refine ⟨_, htext ▸ Decimal.ofText?_point (fun c hc => hdigits c (List.mem_of_mem_take hc))
    (fun c hc => hdigits c (List.mem_of_mem_drop hc)) hwhole, ?_⟩
  rw [Decimal.value, List.take_append_drop, hlength]

include hne in
/-- Zeros lead from the digits to the point. -/
theorem ofText?_positional_of_le {place : Int} (hplace : 0 ≤ place)
    (hshort : digits.length ≤ place.toNat + 1) :
    ∃ d, Decimal.ofText? (positional digits place) = some d ∧
      d.value = Decimal.digitsFrom 0 digits * (10 : ℚ) ^ (place + 1 - digits.length) := by
  obtain ⟨n, hn⟩ := Nat.exists_eq_add_of_le hshort
  have htext : positional digits place = digits ++ List.replicate n '0' ++ '.' :: ['0'] := by
    rw [positional, if_neg (Int.not_lt.mpr hplace)]
    simp only [hn, List.drop_eq_nil_of_le (Nat.le_add_right ..),
      List.take_of_length_le (Nat.le_add_right ..), Nat.add_sub_cancel_left]
    rfl
  have hwhole : ∀ c ∈ digits ++ List.replicate n '0', c.isDigit = true := fun c hc =>
    (List.mem_append.mp hc).elim (hdigits c) isDigit_of_mem_zeros
  have hvalue : Decimal.digitsFrom 0 (digits ++ List.replicate n '0' ++ ['0']) =
      Decimal.digitsFrom 0 digits * 10 ^ n * 10 := by
    rw [Decimal.digitsFrom_append, Decimal.digitsFrom_append, Decimal.digitsFrom_zeros]
    exact Decimal.digitsFrom_zeros _ 1
  have hexponent : place + 1 - digits.length = (n : Int) := by omega
  refine ⟨_, htext ▸ Decimal.ofText?_point hwhole (List.forall_mem_singleton.mpr (by decide))
    (by simp [hne]), ?_⟩
  rw [Decimal.value, hvalue, hexponent, zpow_natCast]
  simp [mul_assoc]

include hne in
/-- A number written out is read as its digits at their place. -/
theorem ofText?_positional (place : Int) :
    ∃ d, Decimal.ofText? (positional digits place) = some d ∧
      d.value = Decimal.digitsFrom 0 digits * (10 : ℚ) ^ (place + 1 - digits.length) := by
  rcases Int.lt_or_le place 0 with hneg | hplace
  · exact ofText?_positional_of_neg hdigits hneg
  · rcases Nat.lt_or_ge (place.toNat + 1) digits.length with hlong | hshort
    · exact ofText?_positional_of_lt hdigits hplace hlong
    · exact ofText?_positional_of_le hdigits hne hplace hshort

end Digits

/-- A number is read back from its text, whatever the layout. -/
theorem signed?_write (l : Layout) {mantissa : Nat} {exponent : Int} (negative : Bool)
    (hcanonical : Binary64.IsCanonical mantissa exponent) :
    Decimal.signed? (l.write (.finite negative mantissa exponent)) =
      some (.finite negative mantissa exponent) := by
  obtain ⟨d, hread, hround⟩ : ∃ d, Decimal.ofText? (l.writeMagnitude mantissa exponent) = some d ∧
      d.toBinary64 negative = .finite negative mantissa exponent := by
    by_cases hzero : mantissa = 0
    · subst hzero
      obtain rfl : exponent = Binary64.leastExponent := hcanonical.full.resolve_left (by decide)
      exact ⟨⟨0, -1⟩, rfl, rfl⟩
    · have hdigits : ∀ c ∈ Text.ofNat (Binary64.shortest mantissa exponent).digits,
          c.isDigit = true := fun c => Text.isDigit_of_mem_ofNat
      have hne := Text.ofNat_ne_nil (Binary64.shortest mantissa exponent).digits
      have howns := Binary64.owns_shortest hzero hcanonical
      obtain ⟨d, hread, hvalue⟩ : ∃ d,
          Decimal.ofText? (l.writeMagnitude mantissa exponent) = some d ∧
            d.value = (Binary64.shortest mantissa exponent).value := by
        let digits := Text.ofNat (Binary64.shortest mantissa exponent).digits
        let place := (Binary64.shortest mantissa exponent).exponent + digits.length - 1
        have hplace : place + 1 - digits.length =
            (Binary64.shortest mantissa exponent).exponent := by
          simp only [place]
          omega
        have hsame : Decimal.digitsFrom 0 digits * (10 : ℚ) ^ (place + 1 - digits.length) =
            (Binary64.shortest mantissa exponent).value := by
          rw [hplace, Decimal.digitsFrom_ofNat, Decimal.value]
        rw [writeMagnitude, if_neg hzero, ← hsame]
        dsimp only
        split
        · exact ofText?_positional hdigits hne place
        · exact ofText?_exponential hdigits hne place
      exact ⟨d, hread, Decimal.toBinary64_of_owns negative hzero hcanonical (hvalue ▸ howns)⟩
  obtain ⟨-, ⟨c, r, hcons, hc⟩, -⟩ := isNumeral_writeMagnitude l mantissa exponent
  rw [write_finite]
  cases negative with
  | true =>
      rw [if_pos rfl, Decimal.signed?, hread, Option.map_some, hround]
  | false =>
      have hsign : c ≠ '-' ∧ c ≠ '+' := by
        constructor <;>
        · rintro rfl
          exact absurd hc (by decide)
      rw [hcons] at hread ⊢
      rw [if_neg Bool.false_ne_true, Decimal.signed?]
      · rw [hread, Option.map_some, hround]
      · exact fun _ h => hsign.1 (List.cons.inj h).1
      · exact fun _ h => hsign.2 (List.cons.inj h).1

end Layout

end Marginalia
