import Marginalia.Moment.Reader
import Marginalia.Proofs.Yaml.Word
import Mathlib.Algebra.Group.Nat.Defs

/-!
# Moments read back

A moment that is on the calendar and on the clock is read back from its writing,
for every year, with the fewest decimals and also within a leap second.  What is
read from a text is on the calendar and on the clock in its turn.
-/

namespace Marginalia.Moment

/-! ## Numbers of a fixed width -/

theorem isDigit_of_mem_padded {width n : Nat} {c : Char} (hc : c ∈ padded width n) :
    c.isDigit = true := by
  rcases List.mem_append.mp hc with hzero | hdigit
  · rw [(List.mem_replicate.mp hzero).2]
    decide
  · exact Text.isDigit_of_mem_ofNat hdigit

theorem padded_ne_nil (width n : Nat) : padded width n ≠ [] := by
  simp [padded, Text.ofNat_ne_nil]

/-- Zeros in front do not change a number. -/
theorem toNat?_padded (width n : Nat) : Text.toNat? (padded width n) = some n := by
  have hzeros : ∀ k, (List.replicate k '0').foldl (fun acc c => acc.bind fun n =>
      (CharClass.hexValue? c).bind fun d => if d < 10 then some (n * 10 + d) else none) (some 0) =
        some 0 := by
    intro k
    induction k with
    | zero => rfl
    | succ k ih => exact ih
  have hofNat := Text.toNat?_ofNat n
  rw [Text.toNat?, Text.toNatBase?] at hofNat ⊢
  rw [if_neg (by simp [Text.ofNat_ne_nil])] at hofNat
  rw [if_neg (by simp [padded_ne_nil]), padded, List.foldl_append, hzeros, hofNat]

theorem length_padded {width n : Nat} (hwidth : 0 < width) (hn : n < 10 ^ width) :
    (padded width n).length = width := by
  have hlength : (Text.ofNat n).length ≤ width :=
    (Nat.length_toDigits_le_iff (by decide) hwidth).mpr hn
  simp only [padded, List.length_append, List.length_replicate]
  omega

/-- Digits are read up to the first character that is none. -/
theorem number?_append {limit : Nat} {digits rest : Text} (hdigits : ∀ c ∈ digits, c.isDigit = true)
    (hlength : digits.length ≤ limit) (hrest : ∀ c ∈ rest.head?, c.isDigit = false) :
    number? limit (digits ++ rest) = (Text.toNat? digits).map (·, rest) := by
  have hrun : ((digits ++ rest).take limit).takeWhile Char.isDigit = digits := by
    have htake : (digits ++ rest).take limit = digits ++ rest.take (limit - digits.length) := by
      rw [List.take_append, List.take_of_length_le hlength]
    rw [htake]
    apply Text.takeWhile_append_of_head? hdigits
    intro c hc
    rw [List.head?_take] at hc
    split at hc
    · cases hc
    · exact hrest c hc
  simp only [number?, hrun, List.drop_left]

theorem number?_padded {limit width n : Nat} {rest : Text}
    (hlength : (padded width n).length ≤ limit) (hrest : ∀ c ∈ rest.head?, c.isDigit = false) :
    number? limit (padded width n ++ rest) = some (n, rest) := by
  rw [number?_append (fun _ => isDigit_of_mem_padded) hlength hrest, toNat?_padded, Option.map_some]

theorem trimStart_padded (width n : Nat) (rest : Text) :
    Text.trimStart (padded width n ++ rest) = padded width n ++ rest := by
  apply Text.trimStart_of_head?
  intro c hc
  obtain ⟨d, r, hcons⟩ := List.exists_cons_of_ne_nil (padded_ne_nil width n)
  rw [hcons] at hc
  obtain rfl : d = c := by simpa using hc
  exact CharClass.isWhite_of_isDigit (isDigit_of_mem_padded (hcons ▸ List.mem_cons_self))

theorem spacedNumber?_padded {n : Nat} (hn : n < 100) {rest : Text}
    (hrest : ∀ c ∈ rest.head?, c.isDigit = false) :
    spacedNumber? 2 (padded 2 n ++ rest) = some (n, rest) := by
  rw [spacedNumber?, trimStart_padded,
    number?_padded (length_padded (by decide) hn).le hrest]

theorem mark?_cons {mark : Char} (hmark : CharClass.isWhite mark = false) (rest : Text) :
    mark? mark (mark :: rest) = some rest := by
  rw [mark?, Text.trimStart_of_head? (by rintro c ⟨⟩; exact hmark)]
  simp [Text.dropPrefix?]

/-! ## The parts of a moment -/

theorem year?_yearText (year : Int) {rest : Text} (hrest : ∀ c ∈ rest.head?, c.isDigit = false) :
    year? (yearText year ++ rest) = some (year, rest) := by
  -- Behind a sign, as many digits are read as stand there.
  have hsigned : number? (padded 4 year.natAbs ++ rest).length (padded 4 year.natAbs ++ rest) =
      some (year.natAbs, rest) :=
    number?_padded (by simp) hrest
  unfold yearText
  split
  · next hnegative =>
      have htrim : Text.trimStart ('-' :: (padded 4 year.natAbs ++ rest)) =
        '-' :: (padded 4 year.natAbs ++ rest) := rfl
      have habs : -(year.natAbs : Int) = year := by omega
      rw [List.cons_append]
      simp only [year?, htrim, hsigned, Option.map_some, habs]
  · next hpositive =>
      have habs : (year.natAbs : Int) = year := by omega
      split
      · have htrim : Text.trimStart ('+' :: (padded 4 year.natAbs ++ rest)) =
          '+' :: (padded 4 year.natAbs ++ rest) := rfl
        rw [List.cons_append]
        simp only [year?, htrim, hsigned, Option.map_some, habs]
      · have hshort : number? 4 (padded 4 year.natAbs ++ rest) = some (year.natAbs, rest) :=
          number?_padded (length_padded (by decide) (by omega)).le hrest
        obtain ⟨d, r, hcons⟩ := List.exists_cons_of_ne_nil (padded_ne_nil 4 year.natAbs)
        have hd : d.isDigit = true := isDigit_of_mem_padded (hcons ▸ List.mem_cons_self)
        rw [year?, trimStart_padded]
        rw [hcons] at hshort ⊢
        split
        · next heq => cases heq; cases hd
        · next heq => cases heq; cases hd
        · simp only [hshort, Option.map_some, habs]

theorem daysOf_le (year : Int) (month : Nat) : Date.daysOf year month ≤ 31 := by
  unfold Date.daysOf
  split
  · split <;> decide
  all_goals decide

theorem date?_append {date : Date} (hvalid : date.isValid = true) {rest : Text}
    (hrest : ∀ c ∈ rest.head?, c.isDigit = false) :
    date? (yearText date.year ++
        '-' :: (padded 2 date.month ++ '-' :: (padded 2 date.day ++ rest))) =
      some (date, rest) := by
  have hmark : ∀ r : Text, ∀ c ∈ ('-' :: r).head?, c.isDigit = false := by
    rintro r c ⟨⟩
    decide
  have hbounds : date.month < 100 ∧ date.day < 100 := by
    simp only [Date.isValid, Bool.and_eq_true, decide_eq_true_eq] at hvalid
    have hdays := daysOf_le date.year date.month
    omega
  simp only [date?, Option.bind_eq_bind, year?_yearText _ (hmark _), Option.bind_some,
    mark?_cons (show CharClass.isWhite '-' = false by decide),
    spacedNumber?_padded hbounds.1 (hmark _), spacedNumber?_padded hbounds.2 hrest]
  rfl

/-- Decimals of any width up to nine are read as nanoseconds. -/
theorem fraction?_padded {width n : Nat} (hwidth : 0 < width) (hnine : width ≤ 9)
    (hn : n < 10 ^ width) {rest : Text} (hrest : ∀ c ∈ rest.head?, c.isDigit = false) :
    fraction? ('.' :: (padded width n ++ rest)) = some (n * 10 ^ (9 - width), rest) := by
  have hlength := length_padded hwidth hn
  have hcount : (padded width n ++ rest).length - rest.length = width := by
    rw [List.length_append, hlength]
    omega
  have hdrop : rest.dropWhile Char.isDigit = rest :=
    Text.dropWhile_append_of_head? (List.forall_mem_nil _) hrest
  rw [fraction?, number?_padded (hlength.le.trans hnine) hrest, Option.map_some]
  simp only [hcount, hdrop]
  rfl

/-- The decimals of a second are read back as nanoseconds. -/
theorem fraction?_fractionText {nano : Nat} (hnano : nano < 1000000000) :
    fraction? (fractionText nano ++ ['Z']) = some (nano, ['Z']) := by
  have hrest : ∀ c ∈ ['Z'].head?, c.isDigit = false := by
    rintro c ⟨⟩
    decide
  unfold fractionText
  split
  · next hzero => rw [hzero]; rfl
  · split
    · next hmillis =>
        rw [List.cons_append, fraction?_padded (by decide) (by decide) (by omega) hrest]
        congr 2
        omega
    · split
      · next hmicros =>
          rw [List.cons_append, fraction?_padded (by decide) (by decide) (by omega) hrest]
          congr 2
          omega
      · rw [List.cons_append, fraction?_padded (by decide) (by decide) (by omega) hrest]
        simp

/-! ## Moments -/

theorem shift_zero {m : Moment} (hhour : m.hour < 24) (hminute : m.minute < 60) :
    m.shift 0 = m := by
  have hday : ¬ (m.hour * 60 + m.minute + 0 : Int) < 0 ∧
      ¬ 1440 ≤ (m.hour * 60 + m.minute + 0 : Int) := by omega
  have htotal : ((m.hour * 60 + m.minute + 0 : Int) % 1440).toNat = m.hour * 60 + m.minute := by
    omega
  have hhours : (m.hour * 60 + m.minute) / 60 = m.hour := by omega
  have hminutes : (m.hour * 60 + m.minute) % 60 = m.minute := by omega
  simp only [shift, if_neg hday.1, if_neg hday.2, htotal, hhours, hminutes]

theorem timeOn?_append {m : Moment} (hhour : m.hour < 24) (hminute : m.minute < 60)
    (hsecond : m.second ≤ 60) (hnano : m.nano < 1000000000) :
    timeOn? m.date (padded 2 m.hour ++ ':' :: (padded 2 m.minute ++ ':' :: (padded 2 m.second ++
      (fractionText m.nano ++ ['Z'])))) = some (m, 0, []) := by
  have hmark : ∀ r : Text, ∀ c ∈ (':' :: r).head?, c.isDigit = false := by
    rintro r c ⟨⟩
    decide
  have hfraction : ∀ c ∈ (fractionText m.nano ++ ['Z']).head?, c.isDigit = false := by
    unfold fractionText
    split_ifs
    all_goals
      rintro c ⟨⟩
      decide
  have hzone : zone? (Text.trimStart ['Z']) = some (0, []) := rfl
  simp only [timeOn?, Option.bind_eq_bind, Option.bind_some,
    spacedNumber?_padded (show m.hour < 100 by omega) (hmark _),
    spacedNumber?_padded (show m.minute < 100 by omega) (hmark _),
    spacedNumber?_padded (show m.second < 100 by omega) hfraction,
    mark?_cons (show CharClass.isWhite ':' = false by decide), fraction?_fractionText hnano, hzone]
  rfl

theorem ofText?_toText {m : Moment} (h : m.isValid = true) : ofText? m.toText = some m := by
  have hbounds := h
  simp only [isValid, Bool.and_eq_true, decide_eq_true_eq] at hbounds
  obtain ⟨⟨⟨⟨hdate, hhour⟩, hminute⟩, hsecond⟩, hnano⟩ := hbounds
  have hassoc : m.toText = yearText m.date.year ++ '-' :: (padded 2 m.date.month ++
      '-' :: (padded 2 m.date.day ++ 'T' :: (padded 2 m.hour ++ ':' :: (padded 2 m.minute ++
        ':' :: (padded 2 m.second ++ (fractionText m.nano ++ ['Z'])))))) := by
    simp [toText]
  have hletter : ∀ r : Text, ∀ c ∈ ('T' :: r).head?, c.isDigit = false := by
    rintro r c ⟨⟩
    decide
  have hseparator : ∀ r : Text, dropSeparator? ('T' :: r) = some r := fun _ => rfl
  have hshift : m.shift (-0) = m := by
    rw [Int.neg_zero, shift_zero hhour hminute]
  rw [hassoc]
  simp only [ofText?, Option.bind_eq_bind, date?_append hdate (hletter _), Option.bind_some,
    hseparator, timeOn?_append hhour hminute hsecond hnano, hshift, h]
  rfl

theorem isValid_of_ofText? {t : Text} {m : Moment} (h : ofText? t = some m) :
    m.isValid = true := by
  obtain ⟨⟨date, t⟩, -, h⟩ := Option.bind_eq_some_iff.mp h
  obtain ⟨t, -, h⟩ := Option.bind_eq_some_iff.mp h
  obtain ⟨⟨m', ahead, t⟩, -, h⟩ := Option.bind_eq_some_iff.mp h
  dsimp only at h
  split at h
  · split at h
    · next hvalid =>
        cases h
        exact hvalid
    · cases h
  · cases h

end Marginalia.Moment
