import Marginalia.Proofs.Text.Trim
import Marginalia.Proofs.Yaml.Word
import Marginalia.Version.Manifest

/-!
# Version markers

A version reads back from its text, also with white space around it, a `v`
before it and further parts behind it.  The marker of a document is found
wherever it stands: no text before it can hide it, because the word of a marker
begins with a letter that it has nowhere else.
-/

namespace Marginalia

open CharClass

theorem CharClass.isDigitAnywhere_of_isDigit {c : Char} (hc : c.isDigit = true) :
    isDigitAnywhere c = true := by
  have hbounds := isDigit_iff.mp hc
  simp [isDigitAnywhere, inRanges, digitRanges, Range.holds, hbounds]

namespace Text

theorem splitAt_of_not_mem {sep : Char} {t : Text} (h : sep ∉ t) : splitAt sep t = [t] := by
  induction t with
  | nil => rfl
  | cons c t ih =>
      obtain ⟨hc, ht⟩ := not_or.mp (mt List.mem_cons.mpr h)
      simp [splitAt, Ne.symm hc, ih ht]

theorem splitAt_append {sep : Char} {piece : Text} (h : sep ∉ piece) (t : Text) :
    splitAt sep (piece ++ sep :: t) = piece :: splitAt sep t := by
  induction piece with
  | nil => simp [splitAt]
  | cons c piece ih =>
      obtain ⟨hc, hpiece⟩ := not_or.mp (mt List.mem_cons.mpr h)
      simp [splitAt, Ne.symm hc, ih hpiece]

theorem point_not_mem_ofNat (n : Nat) : '.' ∉ ofNat n :=
  fun h => absurd (isDigit_of_mem_ofNat h) (by decide)

end Text

namespace Version

/-! ## The text of a version -/

theorem exists_toText_eq_cons (v : Version) : ∃ d r, v.toText = d :: r ∧ d.isDigit = true := by
  obtain ⟨d, r, hcons, hd⟩ := Text.exists_ofNat_eq_cons v.major.toNat
  exact ⟨d, _, by rw [toText, hcons]; rfl, hd⟩

theorem part?_ofNat (n : UInt32) : part? (Text.ofNat n.toNat) = some n := by
  obtain ⟨d, r, hcons, hd⟩ := Text.exists_ofNat_eq_cons n.toNat
  have hsign : Text.dropPrefix? ['+'] (Text.ofNat n.toNat) = none := by
    have hplus : '+' ≠ d := by
      rintro rfl
      cases hd
    simp [hcons, Text.dropPrefix?, hplus]
  have hbound : n.toNat < Nat.pow 2 32 := n.toNat_lt
  rw [part?, hsign, Option.getD_none, Text.toNat?_ofNat, Option.bind_some, if_pos hbound,
    UInt32.ofNat_toNat]

theorem dropLetter_append {letter : Text} (hletter : letter ∈ [[], ['v'], ['V']]) {c : Char}
    (hc : c.isDigit = true) (t : Text) : dropLetter (letter ++ c :: t) = c :: t := by
  simp only [List.mem_cons, List.not_mem_nil, or_false] at hletter
  obtain rfl | rfl | rfl := hletter
  · unfold dropLetter
    split
    · next heq => cases heq; cases hc
    · next heq => cases heq; cases hc
    · rfl
  · rfl
  · rfl

/-- The text of a version with white space around it, a `v` before it and
further parts behind it. -/
def Spells (v : Version) (t : Text) : Prop :=
  ∃ gap letter parts tail : Text, Text.isBlank gap = true ∧ letter ∈ [[], ['v'], ['V']] ∧
    (∀ c ∈ parts.head?, c = '.') ∧ Text.isBlank tail = true ∧
    t = gap ++ letter ++ v.toText ++ parts ++ tail

theorem spells_toText (v : Version) : v.Spells v.toText :=
  ⟨[], [], [], [], rfl, by simp, by simp, rfl, by simp⟩

/-- The pieces of a version's text between its points, whatever parts follow. -/
theorem exists_splitAt_toText (v : Version) {parts : Text} (hparts : ∀ c ∈ parts.head?, c = '.') :
    ∃ more, Text.splitAt '.' (v.toText ++ parts) =
      Text.ofNat v.major.toNat :: Text.ofNat v.minor.toNat :: Text.ofNat v.patch.toNat :: more := by
  have hassoc : v.toText ++ parts = Text.ofNat v.major.toNat ++ '.' ::
      (Text.ofNat v.minor.toNat ++ '.' :: (Text.ofNat v.patch.toNat ++ parts)) := by
    simp [toText]
  rw [hassoc, Text.splitAt_append (Text.point_not_mem_ofNat _),
    Text.splitAt_append (Text.point_not_mem_ofNat _)]
  cases parts with
  | nil =>
      rw [List.append_nil, Text.splitAt_of_not_mem (Text.point_not_mem_ofNat _)]
      exact ⟨[], rfl⟩
  | cons c parts =>
      obtain rfl : c = '.' := hparts c rfl
      rw [Text.splitAt_append (Text.point_not_mem_ofNat _)]
      exact ⟨_, rfl⟩

theorem trimEnd_append_toText (v : Version) (front : Text) :
    Text.trimEnd (front ++ v.toText) = front ++ v.toText := by
  apply Text.trimEnd_of_getLast?
  intro c hc
  have hlast : (front ++ v.toText).getLast? = (Text.ofNat v.patch.toNat).getLast? := by
    obtain ⟨d, r, hcons, -⟩ := Text.exists_ofNat_eq_cons v.patch.toNat
    simp [toText, hcons, List.getLast?_append, List.getLast?_cons]
  rw [hlast] at hc
  exact CharClass.isWhite_of_isDigit (Text.isDigit_of_mem_ofNat (List.mem_of_getLast? hc))

/-- Of a text that spells a version only white space is trimmed. -/
theorem exists_trim_eq (v : Version) {gap letter parts tail : Text}
    (hgap : Text.isBlank gap = true) (hletter : letter ∈ [[], ['v'], ['V']])
    (hparts : ∀ c ∈ parts.head?, c = '.') (htail : Text.isBlank tail = true) :
    ∃ more : Text, (∀ c ∈ more.head?, c = '.') ∧
      Text.trim (gap ++ letter ++ v.toText ++ parts ++ tail) = letter ++ (v.toText ++ more) := by
  have hstart : Text.trimStart (letter ++ v.toText ++ parts ++ tail) =
      letter ++ v.toText ++ parts ++ tail := by
    apply Text.trimStart_of_head?
    obtain ⟨d, r, hcons, hd⟩ := v.exists_toText_eq_cons
    simp only [List.mem_cons, List.not_mem_nil, or_false] at hletter
    obtain rfl | rfl | rfl := hletter
    · simpa [hcons] using CharClass.isWhite_of_isDigit hd
    · simp; decide
    · simp; decide
  have htrim : Text.trim (gap ++ letter ++ v.toText ++ parts ++ tail) =
      Text.trimEnd (letter ++ v.toText ++ parts) := by
    rw [List.append_assoc gap, List.append_assoc gap, List.append_assoc gap,
      Text.trim_append_of_white (List.all_eq_true.mp hgap), Text.trim, hstart,
      Text.trimEnd_append_of_white (List.all_eq_true.mp htail)]
  rw [htrim, Text.trimEnd_append]
  split
  · exact ⟨[], by simp, by rw [v.trimEnd_append_toText, List.append_nil]⟩
  · next hmore =>
      refine ⟨Text.trimEnd parts, ?_, List.append_assoc ..⟩
      rwa [Text.head?_trimEnd]
      rw [← Bool.not_eq_true, ← Text.trimEnd_eq_nil_iff]
      simpa using hmore

/-- A version reads back from every text that spells it. -/
theorem ofText_of_spells {v : Version} {t : Text} (h : v.Spells t) : ofText t = v := by
  obtain ⟨gap, letter, parts, tail, hgap, hletter, hparts, htail, rfl⟩ := h
  obtain ⟨more, hmore, htrim⟩ := v.exists_trim_eq hgap hletter hparts htail
  obtain ⟨further, hsplit⟩ := v.exists_splitAt_toText hmore
  obtain ⟨d, r, hcons, hd⟩ := v.exists_toText_eq_cons
  have hdrop : dropLetter (letter ++ (v.toText ++ more)) = v.toText ++ more := by
    rw [hcons, List.cons_append, dropLetter_append hletter hd]
  rw [ofText, htrim, hdrop, hsplit]
  simp only [List.map_cons, part?_ofNat]

/-! ## Markers -/

/-- The character that one stands for when case does not matter: its simple case
folding, where that is an ASCII character. -/
def foldCase (c : Char) : Char :=
  if c = 'ſ' then 's' else if c = '\u212A' then 'k' else c.toLower

def markerWord : Text :=
  "version:".toList

theorem toUpper_toLower {c : Char} (hc : c.isUpper = true) : c.toLower.toUpper = c := by
  have hall : ∀ n ∈ List.range' 65 26, (Char.ofNat n).toLower.toUpper = Char.ofNat n := by decide
  have hbounds : 65 ≤ c.toNat ∧ c.toNat ≤ 90 := by
    have hvals : c.val ≥ 'A'.val ∧ c.val ≤ 'Z'.val := of_decide_eq_true hc
    exact hvals.imp UInt32.le_iff_toNat_le.mp UInt32.le_iff_toNat_le.mp
  have hmem : c.toNat ∈ List.range' 65 26 := by
    rw [List.mem_range'_1]
    omega
  simpa using hall c.toNat hmem

theorem foldsTo_iff {w c : Char} (hw : w ∈ markerWord) : foldsTo w c = true ↔ foldCase c = w := by
  have hfolded : (markerWord.all fun w => foldCase w == w && foldCase w.toUpper == w) = true := by
    decide
  obtain ⟨hlower, hupper⟩ : foldCase w = w ∧ foldCase w.toUpper = w := by
    simpa using List.all_eq_true.mp hfolded w hw
  simp only [foldsTo, Bool.or_eq_true, Bool.and_eq_true, beq_iff_eq]
  constructor
  · rintro ((rfl | rfl) | ⟨rfl, rfl⟩)
    · exact hlower
    · exact hupper
    · rfl
  · intro hfold
    unfold foldCase at hfold
    split at hfold
    · next hlong => exact Or.inr ⟨hfold.symm, hlong⟩
    · split at hfold
      · exact absurd (hfold ▸ hw) (by decide)
      · left
        by_cases hc : c.isUpper = true
        · exact Or.inr (by rw [← hfold, toUpper_toLower hc])
        · have hsame : c.toLower = c := dif_neg (of_decide_eq_false (Bool.eq_false_iff.mpr hc))
          exact Or.inl (hsame.symm.trans hfold)

/-- The word of a marker is read off a text exactly when the text folds to
it. -/
theorem dropWord?_eq_some_iff {word t rest : Text} (hword : word ⊆ markerWord) :
    dropWord? word t = some rest ↔ ∃ front, t = front ++ rest ∧ front.map foldCase = word := by
  induction word generalizing t with
  | nil => simp [dropWord?]
  | cons w word ih =>
      obtain ⟨hw, hword⟩ := List.cons_subset.mp hword
      cases t with
      | nil => simp [dropWord?]
      | cons c t =>
          simp only [dropWord?, foldsTo_iff hw]
          constructor
          · intro h
            split at h
            · next hfold =>
                obtain ⟨front, rfl, hmap⟩ := (ih hword).mp h
                exact ⟨c :: front, rfl, by rw [List.map_cons, hfold, hmap]⟩
            · cases h
          · rintro ⟨front, heq, hmap⟩
            obtain ⟨d, front', rfl, hfold, htail⟩ := List.map_eq_cons_iff.mp hmap
            obtain ⟨rfl, rfl⟩ := List.cons_eq_cons.mp heq
            rw [if_pos hfold, ih hword]
            exact ⟨front', rfl, htail⟩

/-- No word of a marker begins in a text without one, whatever marker follows:
the letter that the next marker begins with is not in the rest of the word. -/
theorem dropWord?_append_eq_none {c : Char} {front back : Text}
    (hfront : ¬ markerWord <:+: (c :: front).map foldCase)
    (hback : ∀ d ∈ back.head?, foldCase d = 'v') :
    dropWord? markerWord (c :: front ++ back) = none := by
  rw [Option.eq_none_iff_forall_ne_some]
  intro rest hrest
  obtain ⟨word, heq, hmap⟩ := (dropWord?_eq_some_iff (List.Subset.refl _)).mp hrest
  obtain ⟨crossing, rfl, hcrossing⟩ | ⟨more, hinside, -⟩ := List.append_eq_append_iff.mp heq
  · cases crossing with
    | nil =>
        rw [List.append_nil] at hmap
        exact hfront ⟨[], [], by rw [hmap]; rfl⟩
    | cons d crossing =>
        have hd : foldCase d = 'v' := hback d (by rw [hcrossing]; rfl)
        have htail : front.map foldCase ++ 'v' :: crossing.map foldCase = markerWord.tail := by
          simpa [hd] using congrArg List.tail hmap
        have hmem : 'v' ∈ markerWord.tail := by simp [← htail]
        exact absurd hmem (by decide)
  · exact hfront ⟨[], more.map foldCase, by rw [hinside, List.map_append, hmap]; rfl⟩

/-- The version of a document is that of what follows a text without a
marker. -/
theorem find?_append {front back : Text} (hfront : ¬ markerWord <:+: front.map foldCase)
    (hback : ∀ d ∈ back.head?, foldCase d = 'v') : find? (front ++ back) = find? back := by
  induction front with
  | nil => rfl
  | cons c front ih =>
      have hnone : marked? (c :: (front ++ back)) = none :=
        congrArg (Option.bind · _) (dropWord?_append_eq_none hfront hback)
      have hrest : ¬ markerWord <:+: front.map foldCase :=
        fun h => hfront (List.infix_cons h)
      rw [List.cons_append, find?, hnone, ← ih hrest]

/-! ## The digits of a marker -/

theorem digits?_ofNat (n : Nat) {back : Text}
    (hback : ∀ c ∈ back.head?, isDigitAnywhere c = false) :
    digits? (Text.ofNat n ++ back) = some (Text.ofNat n, back) := by
  have hdigits : ∀ c ∈ Text.ofNat n, isDigitAnywhere c = true :=
    fun c hc => isDigitAnywhere_of_isDigit (Text.isDigit_of_mem_ofNat hc)
  rw [digits?, Text.takeWhile_append_of_head? hdigits hback,
    Text.dropWhile_append_of_head? hdigits hback]
  simp [Text.ofNat_ne_nil]

theorem digitsPoint?_ofNat (n : Nat) (back : Text) :
    digitsPoint? (Text.ofNat n ++ '.' :: back) = some (Text.ofNat n, back) := by
  have hpoint : ∀ c ∈ ('.' :: back).head?, isDigitAnywhere c = false := by
    rintro c ⟨⟩
    decide
  simp only [digitsPoint?, digits?_ofNat n hpoint]

theorem triple?_toText (v : Version) {back : Text}
    (hback : ∀ c ∈ back.head?, isDigitAnywhere c = false) :
    triple? (v.toText ++ back) = some v.toText := by
  have hassoc : v.toText ++ back = Text.ofNat v.major.toNat ++ '.' ::
      (Text.ofNat v.minor.toNat ++ '.' :: (Text.ofNat v.patch.toNat ++ back)) := by
    simp [toText]
  rw [hassoc, triple?, digitsPoint?_ofNat]
  simp only [Option.bind_eq_bind, Option.bind_some, digitsPoint?_ofNat, digits?_ofNat _ hback]
  rfl

/-- The version behind a marker is found, whatever stands before the marker and
whatever follows that is not a digit. -/
theorem find?_of_marker (v : Version) {front back : Text}
    (hfront : ¬ markerWord <:+: front.map foldCase)
    (hback : ∀ c ∈ back.head?, isDigitAnywhere c = false) :
    find? (front ++ "Version: ".toList ++ v.toText ++ back) = some v := by
  obtain ⟨d, r, hcons, hd⟩ := v.exists_toText_eq_cons
  have hgap : Text.trimStart (' ' :: (v.toText ++ back)) = v.toText ++ back := by
    have hblank : Text.trimStart (' ' :: (v.toText ++ back)) =
      Text.trimStart (v.toText ++ back) := rfl
    rw [hblank]
    apply Text.trimStart_of_head?
    rw [hcons]
    rintro c ⟨⟩
    exact CharClass.isWhite_of_isDigit hd
  have hletter : dropLetter (v.toText ++ back) = v.toText ++ back := by
    rw [hcons]
    exact dropLetter_append (show ([] : Text) ∈ _ by simp) hd _
  have hmarked : marked? ("Version: ".toList ++ (v.toText ++ back)) = some v.toText := by
    have hword : marked? ("Version: ".toList ++ (v.toText ++ back)) =
      triple? (dropLetter (Text.trimStart (' ' :: (v.toText ++ back)))) := rfl
    rw [hword, hgap, hletter, v.triple?_toText hback]
  have hfind : find? ("Version: ".toList ++ (v.toText ++ back)) = some (ofText v.toText) := by
    have hcons : "Version: ".toList ++ (v.toText ++ back) =
      'V' :: ("ersion: ".toList ++ (v.toText ++ back)) := rfl
    rw [hcons] at hmarked ⊢
    rw [find?, hmarked]
  rw [List.append_assoc, List.append_assoc, find?_append hfront (by rintro d ⟨⟩; rfl), hfind,
    ofText_of_spells v.spells_toText]

end Version

end Marginalia
