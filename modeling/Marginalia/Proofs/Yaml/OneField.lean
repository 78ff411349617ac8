import Marginalia.Proofs.Yaml.Bounded
import Marginalia.Proofs.Yaml.EntryValue
import Marginalia.Proofs.Yaml.Quoted

/-!
# A document of one field

The document is the key `k`, a colon, a space and a text on the same line.  The
reader takes two steps up to the space; from there the text decides.  A text
that is read as one scalar makes a mapping with one entry, and the entry holds a
string only when some scalar behind the colon is that string.
-/

namespace Marginalia.Yaml

open CharClass

namespace Source

/-- One of the two characters below the astral planes that no document may
hold. -/
def isNoncharacter (c : Char) : Bool :=
  c == '\uFFFE' || c == '\uFFFF'

/-- Apart from control characters only the two are forbidden. -/
theorem isAllowed_eq {c : Char} (hc : isControl c = false) : isAllowed c = !isNoncharacter c := by
  have htwo : isNoncharacter c = true ↔ c.toNat = 0xFFFE ∨ c.toNat = 0xFFFF := by
    have hfirst : c = '\uFFFE' ↔ c.toNat = 0xFFFE := Char.ext_iff.trans UInt32.toNat_inj.symm
    have hsecond : c = '\uFFFF' ↔ c.toNat = 0xFFFF := Char.ext_iff.trans UInt32.toNat_inj.symm
    rw [isNoncharacter, Bool.or_eq_true, beq_iff_eq, beq_iff_eq, hfirst, hsecond]
  rw [isControl_eq_false_iff] at hc
  rw [Bool.eq_iff_iff, Bool.not_eq_true', ← Bool.not_eq_true, htwo]
  simp only [isAllowed, Bool.or_eq_true, Bool.and_eq_true, beq_iff_eq, decide_eq_true_eq]
  omega

theorem withLineFeeds_eq_self {t : Text} (ht : Text.NoControl t) : withLineFeeds t = t := by
  induction t with
  | nil => rfl
  | cons c t ih =>
      obtain ⟨hc, ht⟩ := Text.noControl_cons.mp ht
      have hreturn : c ≠ '\r' := ne_of_class hc (by decide)
      rw [withLineFeeds, ih ht]
      · intro r hr
        exact absurd hr hreturn
      · exact hreturn
      · exact ne_of_class hc (by decide)

/-- A text without control characters is read as it is, unless it holds a
noncharacter. -/
theorem ofText_eq_ok {t : Text} (ht : Text.NoControl t) (hn : ∀ c ∈ t, isNoncharacter c = false) :
    ofText t = .ok t := by
  have hfind : (t.find? fun c => !isAllowed c) = none := by
    rw [List.find?_eq_none]
    intro c hc
    rw [isAllowed_eq (ht c hc), hn c hc]
    decide
  rw [ofText, hfind, withLineFeeds_eq_self ht]

theorem exists_ofText_eq_error {t : Text} (ht : Text.NoControl t) {c : Char} (hc : c ∈ t)
    (hn : isNoncharacter c = true) : ∃ e, ofText t = .error e := by
  cases hfind : t.find? fun c => !isAllowed c with
  | none =>
      have hallowed := List.find?_eq_none.mp hfind c hc
      rw [isAllowed_eq (ht c hc), hn] at hallowed
      exact absurd rfl hallowed
  | some d => exact ⟨.forbiddenCharacter d, by rw [ofText, hfind]⟩

end Source

open Source (isNoncharacter)

namespace Token

/-- Quotes hide no noncharacter and bring none. -/
theorem mem_inside_iff {double : Bool} {s : Text} {c : Char} (hc : isNoncharacter c = true) :
    c ∈ mark double :: inside double s ↔ c ∈ s := by
  have hlow : ∀ n < 0xA0, ∀ double, (encode double (Char.ofNat n)).any isNoncharacter = false := by
    decide +kernel
  have hhigh : ∀ a : Char, 0xA0 ≤ a.toNat → encode double a = [a] := by
    intro a ha
    have hcontrol : isControl a = false := by
      rw [isControl_eq_false_iff]
      omega
    apply encode_eq_singleton hcontrol
    · rintro rfl
      cases double <;> exact absurd ha (by decide)
    · rintro - rfl
      exact absurd ha (by decide)
  have hself : ∀ a, c ∈ encode double a ↔ c = a := by
    intro a
    by_cases ha : a.toNat < 0xA0
    · apply iff_of_false
      · intro hmem
        have hnone := hlow a.toNat ha double
        rw [Char.ofNat_toNat, List.any_eq_false] at hnone
        exact hnone c hmem hc
      · rintro rfl
        rw [isNoncharacter, Bool.or_eq_true, beq_iff_eq, beq_iff_eq] at hc
        rcases hc with rfl | rfl <;> exact absurd ha (by decide)
    · rw [hhigh a (by omega), List.mem_singleton]
  have hmark : c ≠ mark double := by
    rintro rfl
    cases double <;> exact absurd hc (by decide)
  simp only [inside, List.mem_cons, List.mem_append, List.mem_flatMap, hself, hmark, false_or,
    List.not_mem_nil, or_false, exists_eq_right']

end Token

namespace Scan

/-! ## Up to the value -/

/-- The tokens before the value, in reverse. -/
def beforeValue : List Token :=
  [.value, .scalar true ['k'], .key, .blockMappingStart]

def atValue (v : Text) : Scan :=
  ⟨⟨' ' :: v, 0, 2⟩, [0], none, [], false, beforeValue⟩

/-- The state at the first character of the value. -/
def atText (v : Text) : Scan :=
  ⟨⟨v, 0, 3⟩, [0], none, [], false, beforeValue⟩

theorem run_eq_dispatch {s s' : Scan} {c : Char} {r : Text} (happroach : s.approach = .ok s')
    (hrest : s'.cursor.rest = c :: r) (n : Nat) : run (n + 1) s = s'.dispatch c r >>= run n := by
  rw [run, happroach]
  simp only [bind, Except.bind, hrest]

theorem run_start (n : Nat) (v : Text) :
    run (n + 2) (Scan.start ('k' :: ':' :: ' ' :: v)) = run n (atValue v) := by
  let atKey : Scan := Scan.start ('k' :: ':' :: ' ' :: v)
  let atColon : Scan :=
    ⟨⟨':' :: ' ' :: v, 0, 1⟩, [], some ⟨0, 0, 0, false⟩, [], false, [.scalar true ['k']]⟩
  have happroachKey : atKey.approach = .ok atKey := rfl
  have hkey : atKey.dispatch 'k' (':' :: ' ' :: v) = .ok atColon := rfl
  have happroachColon : atColon.approach = .ok atColon := rfl
  have hcolon : atColon.dispatch ':' (' ' :: v) = .ok (atValue v) := rfl
  have hfirst : run (n + 2) atKey = run (n + 1) atColon := by
    rw [run_eq_dispatch happroachKey rfl, hkey]
    rfl
  have hsecond : run (n + 1) atColon = run n (atValue v) := by
    rw [run_eq_dispatch happroachColon rfl, hcolon]
    rfl
  exact hfirst.trans hsecond

def atEnd (bare : Bool) (t : Text) (line column : Nat) : Scan :=
  ⟨⟨[], line, column⟩, [0], none, [], false, .scalar bare t :: beforeValue⟩

theorem run_atEnd (n : Nat) (bare : Bool) (t : Text) (line column : Nat) :
    run (n + 1) (atEnd bare t line column) = .ok (.blockEnd :: .scalar bare t :: beforeValue) := rfl

theorem approach_atValue {c : Char} (r : Text) (hgap : Source.isGap c = false)
    (hcomment : c ≠ '#') : (atValue (c :: r)).approach = .ok (atText (c :: r)) := by
  obtain ⟨hblank, hbreak⟩ := Bool.or_eq_false_iff.mp hgap
  obtain ⟨hspace, htab⟩ := Bool.or_eq_false_iff.mp hblank
  rw [beq_eq_false_iff_ne] at hspace htab
  have htext : skipGap false false false 0 3 (c :: r) = (⟨c :: r, 0, 3⟩, false) := by
    rw [skipGap]
    simp [hbreak, hspace, htab, hcomment]
  have hskip : skipGap false false false 0 2 (' ' :: c :: r) = (⟨c :: r, 0, 3⟩, false) := htext
  have happroach : (atValue (c :: r)).approach =
      (do
        let p := skipGap false false false 0 2 (' ' :: c :: r)
        let s ← { atValue (c :: r) with cursor := p.1, keyAllowed := p.2 : Scan }.dropStale
        return s.unroll p.1.column) := rfl
  rw [happroach, hskip]
  rfl

end Scan

/-! ## The value of the document -/

def field (v : Text) : Text :=
  'k' :: ':' :: ' ' :: v

namespace Value

open Scan (beforeValue atValue atEnd)

variable {v : Text}

theorem ofText_field (hv : Text.NoControl v) (hn : ∀ c ∈ v, isNoncharacter c = false) :
    ofText (field v) = Scan.run (v.length + 2) (atValue v) >>= fun ts => ofTokens ts.reverse := by
  have hcontrol : Text.NoControl (field v) := by
    simp only [field, Text.noControl_cons]
    exact ⟨by decide, by decide, by decide, hv⟩
  have hallowed : ∀ c ∈ field v, isNoncharacter c = false := by
    simp only [field, List.forall_mem_cons]
    exact ⟨by decide, by decide, by decide, hn⟩
  have hrun : Scan.run ((field v).length + 1) (Scan.start (field v)) =
      Scan.run (v.length + 2) (atValue v) := Scan.run_start (v.length + 2) v
  rw [ofText_eq, Token.ofText, Source.ofText_eq_ok hcontrol hallowed]
  simp only [bind, Except.bind, hrun]
  cases Scan.run (v.length + 2) (atValue v) with
  | error e => rfl
  | ok ts => rfl

theorem exists_ofText_field_eq_error (hv : Text.NoControl v) {c : Char} (hc : c ∈ v)
    (hn : isNoncharacter c = true) : ∃ e, ofText (field v) = .error e := by
  have hcontrol : Text.NoControl (field v) := by
    simp only [field, Text.noControl_cons]
    exact ⟨by decide, by decide, by decide, hv⟩
  have hmem : c ∈ field v := by simp [field, hc]
  obtain ⟨e, he⟩ := Source.exists_ofText_eq_error hcontrol hmem hn
  exact ⟨e, by rw [ofText_eq, Token.ofText, he]; rfl⟩

theorem ofText_field_of_atEnd (hv : Text.NoControl v) (hn : ∀ c ∈ v, isNoncharacter c = false)
    {bare : Bool} {t : Text} {line column n : Nat}
    (hrun : Scan.run (v.length + 2) (atValue v) = Scan.run (n + 1) (atEnd bare t line column)) :
    ofText (field v) =
      ofScalar false none bare t >>= fun value => .ok (map [(str ['k'], value)]) := by
  have hkey : ofScalar false none true ['k'] = .ok (str ['k']) := by
    rw [ofScalar_bare, ofPlain_eq_str_iff]
    exact ⟨rfl, by decide, by decide, by decide, rfl, Or.inr (by decide)⟩
  rw [ofText_field hv hn, hrun, Scan.run_atEnd]
  have htokens := ofTokens_entry ['k'] t bare
  rw [hkey] at htokens
  exact htokens

/-- A text without a scalar as long as `s` does not have the value `s`. -/
theorem ofText_field_ne (hv : Text.NoControl v) (hn : ∀ c ∈ v, isNoncharacter c = false)
    {s : Text} {n : Nat} (hs : n < s.length)
    (hrun : Ensures (Scan.Continues beforeValue n) (Scan.run (v.length + 2) (atValue v))) :
    ofText (field v) ≠ .ok (map [(str ['k'], str s)]) := by
  intro h
  rw [ofText_field hv hn] at h
  cases hts : Scan.run (v.length + 2) (atValue v) with
  | error e =>
      rw [hts] at h
      simp [bind, Except.bind] at h
  | ok ts =>
      obtain ⟨later, rfl, hlater⟩ := hrun ts hts
      rw [hts] at h
      have htokens : ofTokens (.blockMappingStart :: .key :: .scalar true ['k'] :: .value ::
          later.reverse) = .ok (map [(str ['k'], str s)]) := by
        rw [← h]
        simp [bind, Except.bind, beforeValue]
      have hne : s ≠ [] := by
        rintro rfl
        simp at hs
      obtain ⟨bare, hmem⟩ := mem_of_ofTokens_eq_ok hne htokens
      have hshort : s.length ≤ n := hlater _ (List.mem_reverse.mp hmem)
      omega

end Value

end Marginalia.Yaml
