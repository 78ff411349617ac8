import Marginalia.Proofs.Number.Written
import Marginalia.Proofs.Yaml.FirstEntry
import Marginalia.Proofs.Yaml.Word

/-!
# Numbers of a document

A number with a point or an exponent is read back from the word that it is
written as.  A document has no others than the rounded ones:
`Value.Representable` is what every value of a text has.
-/

namespace Marginalia.Yaml

namespace Value

/-! ## Words for numbers -/

section Marked

variable {t : Text} (hchars : ∀ c ∈ t, isNumeralChar c = true) (hmarked : '.' ∈ t ∨ 'e' ∈ t)

include hmarked

theorem exists_mark : ∃ c ∈ t, c.isDigit = false ∧ c ≠ '-' ∧ c ≠ '+' := by
  rcases hmarked with hmark | hmark
  · exact ⟨'.', hmark, by decide⟩
  · exact ⟨'e', hmark, by decide⟩

theorem hasLeadingZero_of_marked : hasLeadingZero t = false := by
  obtain ⟨c, hc, hdigit, hminus, hplus⟩ := exists_mark hmarked
  rw [Bool.eq_false_iff]
  intro hzero
  obtain ⟨d, ds, hdigits, ht⟩ := exists_of_hasLeadingZero hzero
  have hrest : c ∈ '0' :: d :: ds := by
    rcases ht with rfl | rfl | rfl
    · exact hc
    · exact (List.mem_cons.mp hc).resolve_left hminus
    · exact (List.mem_cons.mp hc).resolve_left hplus
  have hisDigit : c.isDigit = true := by
    rcases List.mem_cons.mp hrest with rfl | hrest
    · decide
    · exact hdigits c hrest
  rw [hdigit] at hisDigit
  cases hisDigit

include hchars

theorem integer?_of_marked : integer? t = none := by
  obtain ⟨c, hc, hdigit, hminus, hplus⟩ := exists_mark hmarked
  have hnone : ∀ r : Text, (∀ d ∈ r, d ∈ t) → c ∈ r →
      ((radixNat? r).orElse fun _ => if hasLeadingZero t then none else Text.toNat? r) = none := by
    intro r hr hcr
    rw [radixNat?_eq_none fun d hd => hchars d (hr d hd), Text.toNat?_eq_none hcr hdigit]
    simp
  unfold integer?
  extract_lets magnitude?
  split
  · next r =>
      have hcr : c ∈ r := (List.mem_cons.mp hc).resolve_left hminus
      rw [show magnitude? r = none from hnone r (fun d hd => List.mem_cons_of_mem _ hd) hcr]
      rfl
  · next r =>
      have hcr : c ∈ r := (List.mem_cons.mp hc).resolve_left hplus
      rw [show magnitude? r = none from hnone r (fun d hd => List.mem_cons_of_mem _ hd) hcr]
      rfl
  · rw [show magnitude? t = none from hnone t (fun _ => id) hc]
    rfl

theorem ofPlain_of_signed? {x : Binary64} (hread : Decimal.signed? t = some x)
    (hfinite : x.isFinite = true) : ofPlain t = .ok (float x) := by
  have hempty : t.isEmpty = false := by
    obtain ⟨c, hc, -⟩ := exists_mark hmarked
    exact List.isEmpty_eq_false_iff.mpr (List.ne_nil_of_mem hc)
  have hinteger : ofInteger? t = none := by
    rw [ofInteger?, integer?_of_marked hchars hmarked]
    rfl
  have hfloat : float? t = some x := by
    have hplus : ∀ r, t ≠ '+' :: r := by
      rintro r rfl
      exact absurd (hchars '+' (List.mem_cons_self ..)) (by decide)
    unfold float?
    extract_lets bare twoSigns
    have hbare : bare = t := by
      simp only [bare]
    have hsigns : twoSigns = false := by
      unfold twoSigns
      split
      · next r => exact absurd rfl (hplus ('+' :: r))
      · next r => exact absurd rfl (hplus ('-' :: r))
      · rfl
    rw [hbare, hsigns, any_toList_beq_eq_false hchars (by decide),
      any_toList_beq_eq_false hchars (by decide), any_toList_beq_eq_false hchars (by decide), hread]
    simp [hfinite]
  rw [ofPlain, hempty, isNull_of_isNumeralChar hchars, bool?_of_isNumeralChar hchars, hinteger,
    hasLeadingZero_of_marked hmarked, hfloat]
  rfl

end Marked

/-- A finite number is read back. -/
theorem ofPlain_write {x : Binary64} (hrounded : x.IsRounded) (hfinite : x.isFinite = true)
    (l : Layout) : ofPlain (l.write x) = .ok (float x) := by
  cases x with
  | nan => cases hfinite
  | infinite negative => cases hfinite
  | finite negative mantissa exponent =>
      obtain ⟨hchars, -, hmarked⟩ := Layout.isNumeral_writeMagnitude l mantissa exponent
      refine ofPlain_of_signed? ?_ ?_ (Layout.signed?_write l negative hrounded) rfl
      · rw [Layout.write_finite]
        split
        · rintro c (_ | ⟨_, hc⟩)
          · decide
          · exact hchars c hc
        · exact hchars
      · rw [Layout.write_finite]
        split
        · exact hmarked.imp (List.mem_cons_of_mem _) (List.mem_cons_of_mem _)
        · exact hmarked

/-! ## The values of a text -/

/-- A value with integers that 64 bits hold and with rounded numbers. -/
inductive Representable : Value → Prop
  | null : Representable null
  | bool (b : Bool) : Representable (bool b)
  | int {i : Int} (hleast : leastInt ≤ i) (hgreatest : i ≤ greatestInt) : Representable (int i)
  | float {x : Binary64} (h : x.IsRounded) : Representable (float x)
  | str (s : Text) : Representable (str s)
  | seq {vs : List Value} (h : ∀ v ∈ vs, Representable v) : Representable (seq vs)
  | map {es : List (Value × Value)} (hkeys : ∀ e ∈ es, Representable e.1)
      (hvalues : ∀ e ∈ es, Representable e.2) : Representable (map es)
  | tagged (name : Text) {v : Value} (h : Representable v) : Representable (tagged name v)

theorem isRounded_of_float? {t : Text} {x : Binary64} (h : float? t = some x) : x.IsRounded := by
  unfold float? at h
  extract_lets bare twoSigns at h
  split_ifs at h
  · obtain rfl := Option.some.inj h
    trivial
  · obtain rfl := Option.some.inj h
    trivial
  · obtain rfl := Option.some.inj h
    trivial
  · obtain ⟨y, hy, h⟩ := Option.bind_eq_some_iff.mp h
    split_ifs at h
    obtain rfl := Option.some.inj h
    exact Decimal.isRounded_of_signed? hy

theorem representable_ofInteger? {t : Text} {r : Except Error Value} (h : ofInteger? t = some r) :
    Ensures Representable r := by
  obtain ⟨i, -, h⟩ := Option.bind_eq_some_iff.mp h
  split_ifs at h with hlimits
  · obtain rfl := Option.some.inj h
    exact Ensures.ok (.int hlimits.1 hlimits.2)
  · obtain rfl := Option.some.inj h
    exact Ensures.error _

theorem representable_ofPlain (t : Text) : Ensures Representable (ofPlain t) := by
  unfold ofPlain
  split
  · exact Ensures.ok .null
  · split
    · exact Ensures.ok (.bool _)
    · split
      · next h => exact representable_ofInteger? h
      · split
        · next x h =>
            split at h
            · cases h
            · exact Ensures.ok (.float (isRounded_of_float? h))
        · exact Ensures.ok (.str t)

theorem representable_ofTagged (tag t : Text) : Ensures Representable (ofTagged tag t) := by
  unfold ofTagged
  extract_lets orFail
  have horFail : ∀ (v? : Option Value) (expected : String), (∀ v ∈ v?, Representable v) →
      Ensures Representable (orFail v? expected) := by
    intro v? expected hv
    cases v? with
    | none => exact Ensures.error _
    | some v => exact Ensures.ok (hv v rfl)
  split_ifs
  · refine horFail _ _ fun v hv => ?_
    obtain ⟨b, -, rfl⟩ := Option.map_eq_some_iff.mp hv
    exact .bool b
  · split
    · next h => exact representable_ofInteger? h
    · exact horFail none "an integer" (by simp)
  · refine horFail _ _ fun v hv => ?_
    obtain ⟨x, hx, rfl⟩ := Option.map_eq_some_iff.mp hv
    exact .float (isRounded_of_float? hx)
  · exact horFail (some Value.null) "null" fun v hv => Option.some.inj hv ▸ .null
  · exact horFail none "null" (by simp)
  · exact Ensures.ok (.str t)

theorem representable_ofScalar (tagRead : Bool) (tag : Option Text) (bare : Bool) (t : Text) :
    Ensures Representable (ofScalar tagRead tag bare t) := by
  unfold ofScalar
  split
  · exact representable_ofTagged _ t
  · exact Ensures.ite (fun _ => representable_ofPlain t) (Ensures.ok (.str t))

theorem representable_ofEntries {es : List (Value × Value)}
    (h : ∀ e ∈ es, Representable e.1 ∧ Representable e.2) :
    Ensures Representable (ofEntries es) :=
  Ensures.ite (fun _ => Ensures.ok (.map (fun e he => (h e he).1) fun e he => (h e he).2))
    (Ensures.error _)

/-- Nodes have representable values, whatever the anchors and the count of
aliases. -/
theorem representable_ofNode (anchors : Anchors) (left : Nat) (tagRead : Bool) (n : Node)
    (count : Nat) : Gives (fun v _ => v.Representable) (ofNode anchors left tagRead n) count := by
  have hlift : ∀ {x : Except Error Value}, Ensures Representable x → ∀ count,
      Gives (fun v _ => v.Representable) (liftM x : StateT Nat (Except Error) Value) count :=
    fun hx _ => gives_lift hx
  induction left generalizing tagRead n count with
  | zero =>
      unfold ofNode
      refine Gives.any.bind fun followed count _ => ?_
      dsimp only
      split
      · exact Gives.of_error rfl
      · split
        · exact (hlift (representable_ofScalar _ _ _ _) count).bind fun v _ hv =>
            gives_pure (.tagged _ hv)
        · exact hlift (representable_ofScalar _ _ _ _) count
      · exact Gives.of_error rfl
      · exact Gives.of_error rfl
  | succ left ih =>
      unfold ofNode
      refine Gives.any.bind fun followed count _ => ?_
      dsimp only
      split
      · exact Gives.of_error rfl
      · split
        · exact (hlift (representable_ofScalar _ _ _ _) count).bind fun v _ hv =>
            gives_pure (.tagged _ hv)
        · exact hlift (representable_ofScalar _ _ _ _) count
      · refine (Gives.mapM (fun n _ count => ih false n count) count).bind fun vs _ hvs => ?_
        split
        · exact gives_pure (.tagged _ (.seq hvs))
        · exact gives_pure (.seq hvs)
      · refine (Gives.mapM (R := fun e : Value × Value => e.1.Representable ∧ e.2.Representable)
          (fun e _ count => ?_) count).bind fun es _ hes => ?_
        · exact (ih _ e.1 count).bind fun k _ hk => (ih _ e.2 _).bind fun v _ hv =>
            gives_pure ⟨hk, hv⟩
        · refine (hlift (representable_ofEntries hes) _).bind fun v _ hv => ?_
          split
          · exact gives_pure (.tagged _ hv)
          · exact gives_pure hv

theorem representable_ofText {t : Text} {root : Value} (h : ofText t = .ok root) :
    root.Representable := by
  obtain ⟨d, -, h⟩ := bind_eq_ok_iff.mp h
  obtain ⟨⟨v, count⟩, hv, h⟩ := bind_eq_ok_iff.mp h
  obtain rfl := Except.ok.inj h
  exact representable_ofNode _ _ _ _ _ v count hv

/-! ## What is found in a value -/

namespace Representable

variable {v : Value}

theorem untagged (h : v.Representable) : v.untagged.Representable := by
  induction h with
  | tagged name h ih => exact ih
  | null => exact .null
  | bool b => exact .bool b
  | int hleast hgreatest => exact .int hleast hgreatest
  | float h => exact .float h
  | str s => exact .str s
  | seq h => exact .seq h
  | map hkeys hvalues => exact .map hkeys hvalues

theorem get? (h : v.Representable) {key : Text} {w : Value} (hw : v.get? key = some w) :
    w.Representable := by
  have hu := h.untagged
  unfold Value.get? at hw
  split at hw
  · next es hes =>
      obtain ⟨e, he, rfl⟩ := Option.map_eq_some_iff.mp hw
      rw [hes] at hu
      cases hu with
      | map hkeys hvalues => exact hvalues e (List.mem_of_find?_eq_some he)
  · cases hw

theorem lookup (h : v.Representable) {module dotted : Text} {w : Value}
    (hw : v.lookup module dotted = some w) : w.Representable := by
  have hfold : ∀ (segments : List Text) (v? : Option Value), (∀ v ∈ v?, v.Representable) →
      ∀ w ∈ segments.foldl (fun v? segment => v?.bind (·.get? segment)) v?, w.Representable := by
    intro segments
    induction segments with
    | nil => exact fun v? hv? => hv?
    | cons segment segments ih =>
        intro v? hv?
        refine ih _ fun w hw => ?_
        obtain ⟨v, hv, hw⟩ := Option.bind_eq_some_iff.mp hw
        exact (hv? v hv).get? hw
  exact hfold _ _ (fun u hu => h.get? hu) w hw

end Representable

end Value

end Marginalia.Yaml
