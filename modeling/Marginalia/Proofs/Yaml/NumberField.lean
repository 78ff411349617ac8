import Marginalia.Proofs.Yaml.InPlace
import Marginalia.Proofs.Yaml.Items
import Marginalia.Proofs.Yaml.Numbers

/-!
# Numbers that are written back

A number is read as a scalar and written back as one word.  An integer that the
scalar cannot hold is rounded on the way.  An infinity and the not-a-number are
written as words of letters, and a document has other spellings for them, so
they come back as strings.
-/

namespace Marginalia.Yaml

namespace Value

/-! ## Words for numbers -/

/-- A number as a text has it. -/
inductive IsNumber : Value → Prop
  | int {i : Int} (hleast : leastInt ≤ i) (hgreatest : i ≤ greatestInt) : IsNumber (int i)
  | float {x : Binary64} (h : x.IsRounded) : IsNumber (float x)

/-- A number after it has been read as a scalar and written back. -/
def writtenBack : Value → Value
  | int i => if i ≤ Scalar.greatestInt then int i else float (Binary64.ofInt i)
  | float x => if x.isFinite then float x else str (Scalar.floatLayout.write x)
  | v => v

/-- The numbers that come back: the integers of a scalar and the finite
numbers. -/
def Survives : Value → Prop
  | int i => i ≤ Scalar.greatestInt
  | float x => x.isFinite = true
  | _ => True

theorem writtenBack_eq_self_iff (v : Value) : v.writtenBack = v ↔ v.Survives := by
  cases v with
  | int i =>
      rw [writtenBack, Survives]
      split <;> simp [*]
  | float x =>
      rw [writtenBack, Survives]
      split <;> simp [*]
  | null => exact iff_of_true rfl trivial
  | bool b => exact iff_of_true rfl trivial
  | str s => exact iff_of_true rfl trivial
  | seq vs => exact iff_of_true rfl trivial
  | map es => exact iff_of_true rfl trivial
  | tagged name v => exact iff_of_true rfl trivial

theorem ofPlain_write_of_not_isFinite {x : Binary64} (h : x.isFinite = false) :
    ofPlain (Scalar.floatLayout.write x) = .ok (str (Scalar.floatLayout.write x)) := by
  cases x with
  | nan => rfl
  | infinite negative => cases negative <;> rfl
  | finite => cases h

theorem IsNumber.exists_word {v : Value} (h : v.IsNumber) :
    ∃ x : Scalar, Scalar.ofValue? v = some x ∧ (∀ quote, IsNumberWord (x.render quote)) ∧
      ∀ quote, ofPlain (x.render quote) = .ok v.writtenBack := by
  have hfinite : ∀ {x : Binary64}, x.IsRounded → x.isFinite = true →
      ofPlain (Scalar.floatLayout.write x) = .ok (.float x) :=
    fun hrounded hfinite => ofPlain_write hrounded hfinite Scalar.floatLayout
  cases h with
  | @int i hleast hgreatest =>
      rw [Scalar.ofValue?, writtenBack]
      split
      · exact ⟨_, rfl, fun _ => Text.isNumberWord_ofInt i, fun _ => ofPlain_ofInt hleast hgreatest⟩
      · have hleast' : -9223372036854775808 ≤ i := hleast
        have hgreatest' : i ≤ 18446744073709551615 := hgreatest
        exact ⟨_, rfl, fun _ => Scalar.isNumberWord_write _, fun _ =>
          hfinite (Binary64.isRounded_ofInt i) (Binary64.isFinite_ofInt (by omega))⟩
  | @float x hrounded =>
      refine ⟨_, rfl, fun _ => Scalar.isNumberWord_write x, fun _ => ?_⟩
      rw [writtenBack]
      split
      · next h => exact hfinite hrounded h
      · next h => exact ofPlain_write_of_not_isFinite (Bool.eq_false_iff.mpr h)

end Value

theorem Scalar.isDelicate_of_isNumberWord {w : Text} (h : IsNumberWord w) {c : Char}
    (hc : c ∈ w) : isDelicate c = false := by
  rw [Bool.eq_false_iff]
  intro hdelicate
  simp only [isDelicate, isControl_of_isNumberWord h hc, Bool.or_eq_true, beq_iff_eq, or_assoc,
    Bool.false_eq_true, or_false] at hdelicate
  rcases hdelicate with rfl | rfl | rfl | rfl | rfl <;> exact absurd (h.chars _ hc) (by decide)

/-- A word behind the key of a document is the plain scalar that it spells. -/
theorem Value.ofText_field_of_isNumberWord {w : Text} {v : Value} (h : IsNumberWord w)
    (hvalue : ofPlain w = .ok v) : ofText (field w) = .ok (.map [(.str ['k'], v)]) := by
  have hdelicate : ∀ c ∈ w, Scalar.isDelicate c = false := fun c =>
    Scalar.isDelicate_of_isNumberWord h
  have hseparator : ∀ c ∈ w, Source.isSeparator c = false := by
    intro c hc
    have hgap := Scalar.isGap_of_isNumberWord h hc
    rwa [Scalar.isGap_of_isDelicate_eq_false (hdelicate c hc)] at hgap
  have hrun : Scan.run (w.length + 2) (Scan.atValue w) =
      Scan.run (w.length + 1) (Scan.atEnd true w 0 (3 + w.length)) := by
    obtain ⟨c, r, rfl⟩ : ∃ c r, w = c :: r := by
      obtain ⟨c, r, rfl | rfl, -⟩ := h.begins
      · exact ⟨_, _, rfl⟩
      · exact ⟨_, _, rfl⟩
    exact Scalar.run_of_readsOpen hdelicate hseparator (Scalar.opensBare_of_isNumberWord h) _
  rw [ofText_field_of_atEnd (fun _ => Scalar.isControl_of_isNumberWord h)
    (fun _ => Scalar.isNoncharacter_of_isNumberWord h) hrun, ofScalar_bare, hvalue]
  rfl

/-! ## Numbers in a document -/

namespace Patch

/-- A number that is read as a scalar and written back, behind the key of a
document of its own and in the place of a field of any document: it comes back
as what `Value.writtenBack` says, and that is the same number exactly for the
integers of a scalar and the finite numbers. -/
theorem number_survives_iff {v : Value} (h : v.IsNumber) :
    ∃ x : Scalar, Scalar.ofValue? v = some x ∧
      (∀ quote, Value.ofText (field (x.render quote)) =
        .ok (.map [(.str ['k'], v.writtenBack)])) ∧
      (∀ {t module path : Text} {root : Value}, Nonempty (FieldInPlace t module path) →
        Value.ofText t = .ok root →
          ∃ e root', setScalar t module path x = .ok e ∧ Value.ofText (e.apply t) = .ok root' ∧
            root'.lookup module path = some v.writtenBack ∧
            ∀ other, other ≠ module → root'.get? other = root.get? other) ∧
      (v.writtenBack = v ↔ v.Survives) := by
  obtain ⟨x, hx, hword, hvalue⟩ := h.exists_word
  refine ⟨x, hx, fun quote => Value.ofText_field_of_isNumberWord (hword quote) (hvalue quote), ?_,
    v.writtenBack_eq_self_iff⟩
  rintro t module path root ⟨f⟩ hroot
  obtain ⟨e, old, vs, vs', hset, rfl, hdistinct, hdiffer, hroot'⟩ :=
    f.exists_differAt_word hroot hword hvalue
  rw [Value.distinct_congr hdiffer.map_fst_eq] at hdistinct
  exact ⟨e, .map vs', hset, hroot', hdiffer.foldl_get?_eq hdistinct,
    fun _ hother => hdiffer.get?_eq_of_ne hother⟩

/-- The least integer that a scalar does not hold comes back as a floating-point
number. -/
theorem number_survives_iff_past_greatest :
    ∃ x : Scalar, Scalar.ofValue? (.int (Int.pow 2 63)) = some x ∧
      ∀ quote, Value.ofText (field (x.render quote)) =
        .ok (.map [(.str ['k'], .float (.finite false (Nat.pow 2 52) 11))]) := by
  obtain ⟨x, hx, hfield, -, -⟩ :=
    number_survives_iff (v := .int (Int.pow 2 63)) (.int (by decide) (by decide))
  have hback : (Value.int (Int.pow 2 63)).writtenBack =
      .float (.finite false (Nat.pow 2 52) 11) := by
    have hrounded : Binary64.ofInt (Int.pow 2 63) = .finite false (Nat.pow 2 52) 11 := by
      decide +kernel
    rw [Value.writtenBack, if_neg (by decide), hrounded]
  rw [hback] at hfield
  exact ⟨x, hx, hfield⟩

/-- The value that a form shows for an infinity, written back, is a string. -/
theorem infinity_comes_back_as_string :
    let t := "m:\n  k: .inf\n".toList
    let read (t : Text) : Option Scalar :=
      ((Value.ofText t).toOption.bind (·.lookup ['m'] ['k'])).bind Scalar.ofValue?
    read t = some (.float (.infinite false)) ∧
      ∃ e, setScalar t ['m'] ['k'] (.float (.infinite false)) = .ok e ∧
        e.apply t = "m:\n  k: inf\n".toList ∧
        read (e.apply t) = some (.str "inf".toList) := by
  intro t read
  have hset : setScalar t ['m'] ['k'] (.float (.infinite false)) =
      .ok ⟨⟨3, 12⟩, "  k: inf".toList⟩ := by
    decide +kernel
  have happly : (⟨⟨3, 12⟩, "  k: inf".toList⟩ : Edit).apply t = "m:\n  k: inf\n".toList := by
    decide +kernel
  refine ⟨by decide +kernel, _, hset, happly, ?_⟩
  rw [happly]
  decide +kernel

end Patch

end Marginalia.Yaml
