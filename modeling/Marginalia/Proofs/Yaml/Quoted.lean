import Marginalia.Proofs.Yaml.Folding
import Marginalia.Proofs.Yaml.Rendered

/-!
# Reading quoted strings

A written string keeps its spaces and its line and paragraph separators between
the quotes; every other character is read for itself or has an escape.  So the
reader takes one step for each character of the string, whichever quotes it has,
and stops early only at a separator with a document marker behind it.
-/

namespace Marginalia.Yaml

open CharClass

open Source (isBlank isBreak isGap isOpenGap isSeparator opensMarker Unmarked)

namespace Token

/-! ## Escapes -/

/-- The code point of a control character is read back from its four hexadecimal
digits. -/
theorem hexEscape?_hex {c : Char} {r : Text} (hc : isControl c = true) :
    (Text.hex 4 c.toNat).length = 4 ∧ hexEscape? 4 (Text.hex 4 c.toNat ++ r) = some c := by
  have hdigits : ∀ n < 0xA0, (Text.hex 4 n).length = 4 ∧
      Text.toNatBase? 16 (Text.hex 4 n) = some n := by
    decide +kernel
  have hlow : c.toNat < 0xA0 := by
    rw [isControl_iff] at hc
    omega
  obtain ⟨hlength, hvalue⟩ := hdigits c.toNat hlow
  have hshort : ¬(Text.hex 4 c.toNat ++ r).length < 4 := by
    rw [List.length_append]
    omega
  have htake : (Text.hex 4 c.toNat ++ r).take 4 = Text.hex 4 c.toNat :=
    List.take_left' hlength
  have hvalid : c.toNat.isValidChar := c.valid
  refine ⟨hlength, ?_⟩
  rw [hexEscape?, if_neg hshort, htake, hvalue, Option.bind_some, if_pos hvalid, Char.ofNat_toNat]

theorem exists_escape?_eq_some {c : Char} {r : Text}
    (hc : isControl c = true ∨ c = '"' ∨ c = '\\') :
    ∃ x, Scalar.escape c = '\\' :: x ∧ escape? (x ++ r) = some (c, x.length) ∧
      ((x ++ r).head?.map isBreak).getD false = false := by
  unfold Scalar.escape
  split_ifs with hbackslash hquote hfeed hreturn htab hcontrol
  · subst hbackslash
    exact ⟨['\\'], rfl, rfl, rfl⟩
  · subst hquote
    exact ⟨['"'], rfl, rfl, rfl⟩
  · subst hfeed
    exact ⟨['n'], rfl, rfl, rfl⟩
  · subst hreturn
    exact ⟨['r'], rfl, rfl, rfl⟩
  · subst htab
    exact ⟨['t'], rfl, rfl, rfl⟩
  · obtain ⟨hlength, hread⟩ := hexEscape?_hex (r := r) hcontrol
    refine ⟨'u' :: Text.hex 4 c.toNat, rfl, ?_, rfl⟩
    rw [List.cons_append, escape?, hread, Option.map_some, List.length_cons, hlength]
  · simp [hcontrol, hquote, hbackslash] at hc

/-! ## Characters between quotes -/

def mark (double : Bool) : Char :=
  if double then '"' else '\''

def encode (double : Bool) (c : Char) : Text :=
  if double then Scalar.escape c else Scalar.doubleApostrophe c

/-- A string as it is written behind its opening quote. -/
def inside (double : Bool) (s : Text) : Text :=
  s.flatMap (encode double) ++ [mark double]

/-- Single quotes hold no control characters. -/
def Quotable (double : Bool) (c : Char) : Prop :=
  double = true ∨ isControl c = false

theorem inside_cons (double : Bool) (c : Char) (s : Text) :
    inside double (c :: s) = encode double c ++ inside double s := by
  simp [inside]

theorem doubleQuoted_eq (s : Text) : Scalar.doubleQuoted s = mark true :: inside true s := rfl

theorem singleQuoted_eq {s : Text} (hs : s.any isControl = false) :
    Scalar.singleQuoted s = mark false :: inside false s := by
  rw [Scalar.singleQuoted, hs]
  rfl

variable {double : Bool} {c : Char} {s t : Text}

theorem noControl_inside (hs : ∀ c ∈ s, Quotable double c) : Text.NoControl (inside double s) := by
  have hmark : isControl (mark double) = false := by cases double <;> decide
  rw [inside, Text.noControl_append]
  refine ⟨Text.noControl_flatMap fun c hc => ?_, by simp [hmark]⟩
  rcases hs c hc with rfl | hcontrol
  · exact Scalar.noControl_escape c
  · cases double with
    | false => exact Scalar.noControl_doubleApostrophe hcontrol
    | true => exact Scalar.noControl_escape c

/-- A character is written for itself unless it is a quote, a backslash or a
control character. -/
theorem encode_eq_singleton (hcontrol : isControl c = false) (hquote : c ≠ mark double)
    (hbackslash : double = true → c ≠ '\\') : encode double c = [c] := by
  cases double with
  | false => exact if_neg hquote
  | true =>
      have hfeed : c ≠ '\n' := ne_of_class hcontrol (by decide)
      have hreturn : c ≠ '\r' := ne_of_class hcontrol (by decide)
      have htab : c ≠ '\t' := ne_of_class hcontrol (by decide)
      have hquote : c ≠ '"' := hquote
      simp [encode, Scalar.escape, hbackslash rfl, hquote, hfeed, hreturn, htab, hcontrol]

/-- The written form begins with the character itself, or with the quote or a
backslash. -/
theorem exists_encode_eq_cons (hc : Quotable double c) :
    encode double c = [c] ∨ ∃ a t, encode double c = a :: t ∧ (a = mark double ∨ a = '\\') := by
  cases double with
  | false =>
      by_cases hquote : c = '\''
      · subst hquote
        exact Or.inr ⟨'\'', ['\''], rfl, Or.inl rfl⟩
      · exact Or.inl (if_neg hquote)
  | true =>
      by_cases hescape : isControl c = true ∨ c = '"' ∨ c = '\\'
      · obtain ⟨x, hx, -⟩ := exists_escape?_eq_some (r := []) hescape
        exact Or.inr ⟨'\\', x, hx, Or.inr rfl⟩
      · simp only [not_or, Bool.not_eq_true] at hescape
        exact Or.inl (encode_eq_singleton hescape.1 hescape.2.1 fun _ => hescape.2.2)

/-- A character that is written for itself and begins the written form of no
other character. -/
structure Verbatim (double : Bool) (c : Char) : Prop where
  notControl : isControl c = false
  ne_mark : c ≠ mark double
  ne_backslash : c ≠ '\\'

theorem Verbatim.encode_eq (hc : Verbatim double c) : encode double c = [c] :=
  encode_eq_singleton hc.notControl hc.ne_mark fun _ => hc.ne_backslash

theorem verbatim_of_isOpenGap (hc : isOpenGap c = true) : Verbatim double c := by
  simp only [Source.isOpenGap, Source.isSeparator, Bool.or_eq_true, beq_iff_eq] at hc
  rcases hc with rfl | rfl | rfl <;> cases double <;> constructor <;> decide

theorem verbatim_of_marker (hc : c = '-' ∨ c = '.') : Verbatim double c := by
  rcases hc with rfl | rfl <;> cases double <;> constructor <;> decide

/-! ## Markers between quotes -/

theorem inside_eq_cons_iff (hc : Verbatim double c) (hs : ∀ a ∈ s, Quotable double a) :
    inside double s = c :: t ↔ ∃ r, s = c :: r ∧ t = inside double r := by
  constructor
  · intro h
    cases s with
    | nil => exact absurd (List.cons.inj h).1.symm hc.ne_mark
    | cons a s =>
        rw [inside_cons] at h
        rcases exists_encode_eq_cons (hs a (List.mem_cons_self ..)) with ha | ⟨b, r, ha, hb⟩
        · rw [ha, List.singleton_append] at h
          obtain ⟨rfl, rfl⟩ := List.cons.inj h
          exact ⟨s, rfl, rfl⟩
        · rw [ha, List.cons_append] at h
          obtain ⟨rfl, -⟩ := List.cons.inj h
          rcases hb with hb | hb
          · exact absurd hb hc.ne_mark
          · exact absurd hb hc.ne_backslash
  · rintro ⟨r, rfl, rfl⟩
    rw [inside_cons, hc.encode_eq, List.singleton_append]

theorem atGap_inside_iff (hs : ∀ c ∈ s, Quotable double c) :
    Source.atGap (inside double s) = true ↔ ∃ c r, s = c :: r ∧ isOpenGap c = true := by
  constructor
  · intro h
    cases hinside : inside double s with
    | nil => simp [inside] at hinside
    | cons c t =>
        rw [hinside] at h
        have hcontrol : isControl c = false := noControl_inside hs c (by simp [hinside])
        have hopen : isOpenGap c = true := (Source.isGap_eq_isOpenGap hcontrol).symm.trans h
        obtain ⟨r, rfl, -⟩ := (inside_eq_cons_iff (verbatim_of_isOpenGap hopen) hs).mp hinside
        exact ⟨c, r, rfl, hopen⟩
  · rintro ⟨c, r, rfl, hc⟩
    rw [inside_cons, (verbatim_of_isOpenGap hc).encode_eq]
    exact Source.isGap_of_isOpenGap hc

theorem atMarker_inside (hs : ∀ c ∈ s, Quotable double c) :
    Source.atMarker (inside double s) = opensMarker s := by
  have htail : ∀ {c : Char} {r : Text}, (∀ a ∈ c :: r, Quotable double a) →
      ∀ a ∈ r, Quotable double a :=
    fun h a ha => h a (List.mem_cons_of_mem _ ha)
  rw [Bool.eq_iff_iff, Source.atMarker_iff, Source.opensMarker_iff]
  constructor
  · rintro ⟨d, r, hd, h, hr⟩
    have hverbatim : Verbatim double d := verbatim_of_marker hd
    obtain ⟨s₁, rfl, h₁⟩ := (inside_eq_cons_iff hverbatim hs).mp h
    obtain ⟨s₂, rfl, h₂⟩ := (inside_eq_cons_iff hverbatim (htail hs)).mp h₁.symm
    obtain ⟨s₃, rfl, rfl⟩ := (inside_eq_cons_iff hverbatim (htail (htail hs))).mp h₂.symm
    obtain ⟨c, r, rfl, hc⟩ := (atGap_inside_iff (htail (htail (htail hs)))).mp hr
    exact ⟨d, c, r, hd, rfl, hc⟩
  · rintro ⟨d, c, r, hd, rfl, hc⟩
    have hverbatim : Verbatim double d := verbatim_of_marker hd
    have h₃ := (inside_eq_cons_iff hverbatim (htail (htail hs))).mpr ⟨c :: r, rfl, rfl⟩
    have h₂ := (inside_eq_cons_iff hverbatim (htail hs)).mpr ⟨d :: c :: r, rfl, rfl⟩
    have h₁ := (inside_eq_cons_iff hverbatim hs).mpr ⟨d :: d :: c :: r, rfl, rfl⟩
    refine ⟨d, inside double (c :: r), hd, by rw [h₁, h₂, h₃], ?_⟩
    exact (atGap_inside_iff (htail (htail (htail hs)))).mpr ⟨c, r, rfl, hc⟩

/-! ## One character at a time -/

section Steps

variable {out x r : Text} {gap : Gap} {line column : Nat}

theorem atMarker_cons_of_ne (hdash : c ≠ '-') (hdot : c ≠ '.') :
    Source.atMarker (c :: r) = false := by
  rw [← Bool.not_eq_true, Source.atMarker_iff]
  rintro ⟨d, r', hd, h, -⟩
  obtain ⟨rfl, -⟩ := List.cons.inj h
  rcases hd with hd | hd
  · exact hdash hd
  · exact hdot hd

theorem quotedFrom_skip :
    quotedFrom double ⟨out, gap, x.length⟩ line column (x ++ r) =
      quotedFrom double ⟨out, gap, 0⟩ line (column + x.length) r := by
  induction x generalizing column with
  | nil => rfl
  | cons a x ih =>
      rw [List.cons_append, List.length_cons, quotedFrom]
      simp only [Nat.zero_lt_succ, if_true, Nat.add_sub_cancel]
      rw [ih, Nat.add_assoc, Nat.add_comm 1]

theorem quotedFrom_escape (hx : escape? (x ++ r) = some (c, x.length))
    (hbreak : ((x ++ r).head?.map isBreak).getD false = false) :
    quotedFrom true ⟨out, gap, 0⟩ line column ('\\' :: (x ++ r)) =
      quotedFrom true ⟨c :: (gap.fold ++ out), .empty, 0⟩ line (column + 1 + x.length) r := by
  have hmarker : Source.atMarker ('\\' :: (x ++ r)) = false :=
    atMarker_cons_of_ne (by decide) (by decide)
  have hblank : isBlank '\\' = false := by decide
  have hno : isBreak '\\' = false := by decide
  rw [quotedFrom]
  simp only [Nat.lt_irrefl, if_false, hmarker, Bool.false_eq_true, and_false, hblank, hno, if_true,
    hbreak, hx, Char.reduceEq]
  exact quotedFrom_skip

/-- A character that is no white space and has no escape is read for itself. -/
theorem quotedFrom_word (hgap : isGap c = false) (hquote : c ≠ mark double)
    (hbackslash : double = true → c ≠ '\\')
    (hmarker : column = 0 → Source.atMarker (c :: r) = false) :
    quotedFrom double ⟨out, gap, 0⟩ line column (c :: r) =
      quotedFrom double ⟨c :: (gap.fold ++ out), .empty, 0⟩ line (column + 1) r := by
  have hno : ¬(column = 0 ∧ Source.atMarker (c :: r) = true) := by
    rintro ⟨hcolumn, h⟩
    rw [hmarker hcolumn] at h
    exact absurd h (by decide)
  obtain ⟨hblank, hbreak⟩ := Bool.or_eq_false_iff.mp hgap
  rw [quotedFrom]
  simp only [Nat.lt_irrefl, if_false, hno, hblank, hbreak, Bool.false_eq_true]
  cases double with
  | false =>
      have hquote : c ≠ '\'' := hquote
      simp only [Bool.false_eq_true, if_false, hquote]
  | true =>
      have hquote : c ≠ '"' := hquote
      simp only [if_true, hquote, hbackslash rfl, if_false]

theorem quotedFrom_blank :
    quotedFrom double ⟨out, gap, 0⟩ line column (' ' :: r) =
      quotedFrom double ⟨out, gap.blank ' ', 0⟩ line (column + 1) r := by
  have hmarker : Source.atMarker (' ' :: r) = false := atMarker_cons_of_ne (by decide) (by decide)
  have hblank : isBlank ' ' = true := by decide
  rw [quotedFrom]
  simp only [Nat.lt_irrefl, if_false, hmarker, Bool.false_eq_true, and_false, hblank, if_true]

theorem quotedFrom_separator (hc : isSeparator c = true) :
    quotedFrom double ⟨out, gap, 0⟩ line column (c :: r) =
      quotedFrom double ⟨out, gap.lineBreak c, 0⟩ (line + 1) 0 r := by
  have hne : ∀ d, isSeparator d = false → c ≠ d := fun d hd => (ne_of_class hd hc).symm
  have hmarker : Source.atMarker (c :: r) = false :=
    atMarker_cons_of_ne (hne '-' (by decide)) (hne '.' (by decide))
  have hblank : isBlank c = false := by
    rw [isBlank, Bool.or_eq_false_iff, beq_eq_false_iff_ne, beq_eq_false_iff_ne]
    exact ⟨hne ' ' (by decide), hne '\t' (by decide)⟩
  have hbreak := Source.isBreak_of_isSeparator hc
  rw [quotedFrom]
  simp only [Nat.lt_irrefl, if_false, hmarker, Bool.false_eq_true, and_false, hblank, hbreak,
    if_true]

theorem quotedFrom_close {tail : Text} (htail : Source.atGap tail = true) :
    quotedFrom double ⟨out, gap, 0⟩ line column (inside double [] ++ tail) =
      .ok ((gap.fold ++ out).reverse, ⟨tail, line, column + 1⟩) := by
  have hmarker : Source.atMarker (mark double :: tail) = false := by
    cases double <;> exact atMarker_cons_of_ne (by decide) (by decide)
  have hblank : isBlank (mark double) = false := by
    cases double <;> decide
  have hbreak : isBreak (mark double) = false := by
    cases double <;> decide
  have hquote : tail.head? ≠ some '\'' := by
    rintro h
    obtain ⟨r, rfl⟩ := List.head?_eq_some_iff.mp h
    cases htail
  have hinside : inside double [] ++ tail = mark double :: tail := rfl
  rw [hinside, quotedFrom]
  simp only [Nat.lt_irrefl, if_false, hmarker, Bool.false_eq_true, and_false, hblank, hbreak]
  cases double with
  | false =>
      have hmark : mark false = '\'' := rfl
      rw [if_neg Bool.false_ne_true, if_pos hmark, if_neg hquote]
  | true => rfl

theorem quotedFrom_marker (hmarker : Source.atMarker (c :: r) = true) :
    quotedFrom double ⟨out, gap, 0⟩ line 0 (c :: r) = .error .unclosedQuote := by
  rw [quotedFrom]
  simp only [Nat.lt_irrefl, if_false, hmarker, and_true, if_true]

/-- A character that is not open white space is read for itself, however it is
written. -/
theorem quotedFrom_encode (hc : Quotable double c) (hopen : isOpenGap c = false)
    (hmarker : column = 0 → Source.atMarker (encode double c ++ r) = false) :
    quotedFrom double ⟨out, gap, 0⟩ line column (encode double c ++ r) =
      quotedFrom double ⟨c :: (gap.fold ++ out), .empty, 0⟩ line
        (column + (encode double c).length) r := by
  have hplain : isControl c = false → c ≠ mark double → (double = true → c ≠ '\\') →
      quotedFrom double ⟨out, gap, 0⟩ line column (encode double c ++ r) =
        quotedFrom double ⟨c :: (gap.fold ++ out), .empty, 0⟩ line
          (column + (encode double c).length) r := by
    intro hcontrol hquote hbackslash
    have hgap : isGap c = false := by rw [Source.isGap_eq_isOpenGap hcontrol, hopen]
    rw [encode_eq_singleton hcontrol hquote hbackslash] at hmarker ⊢
    exact quotedFrom_word hgap hquote hbackslash hmarker
  cases double with
  | false =>
      have hcontrol : isControl c = false := hc.resolve_left (by decide)
      by_cases hquote : c = '\''
      · subst hquote
        have hmarker : Source.atMarker ('\'' :: '\'' :: r) = false :=
          atMarker_cons_of_ne (by decide) (by decide)
        have hblank : isBlank '\'' = false := by decide
        have hbreak : isBreak '\'' = false := by decide
        have htwo : encode false '\'' = ['\'', '\''] := rfl
        rw [htwo, List.cons_append, List.singleton_append, quotedFrom]
        simp only [Nat.lt_irrefl, if_false, hmarker, Bool.false_eq_true, and_false, hblank, hbreak,
          if_true, List.head?_cons]
        exact quotedFrom_skip (x := ['\''])
      · exact hplain hcontrol hquote (by simp)
  | true =>
      by_cases hescape : isControl c = true ∨ c = '"' ∨ c = '\\'
      · obtain ⟨x, hwritten, hx, hbreak⟩ := exists_escape?_eq_some (r := r) hescape
        have hencode : encode true c = '\\' :: x := hwritten
        rw [hencode, List.cons_append, quotedFrom_escape hx hbreak, List.length_cons,
          Nat.add_assoc, Nat.add_comm 1]
      · simp only [not_or, Bool.not_eq_true] at hescape
        exact hplain hescape.1 hescape.2.1 fun _ => hescape.2.2

end Steps

/-! ## The whole string -/

variable {tail : Text}

/-- The reader takes one step for each character of the string, and stops at a
marker. -/
theorem quotedFrom_inside_cons {q : QuotedState} (hq : q.skip = 0)
    (hs : ∀ a ∈ c :: s, Quotable double a) (htail : Source.atGap tail = true)
    (line column : Nat) :
    (column = 0 ∧ opensMarker (c :: s) = true ∧
        quotedFrom double q line column (inside double (c :: s) ++ tail) =
          .error .unclosedQuote) ∨
      (column = 0 → opensMarker (c :: s) = false) ∧
        ∃ line' column', line ≤ line' ∧ (column' = 0 ↔ isSeparator c = true) ∧
          quotedFrom double q line column (inside double (c :: s) ++ tail) =
            quotedFrom double (q.read c) line' column' (inside double s ++ tail) := by
  obtain ⟨out, gap, skip⟩ := q
  obtain rfl : skip = 0 := hq
  have hat : Source.atMarker (inside double (c :: s) ++ tail) = opensMarker (c :: s) := by
    rw [Source.atMarker_append htail, atMarker_inside hs]
  by_cases hmarker : column = 0 ∧ opensMarker (c :: s) = true
  · obtain ⟨rfl, hmarker⟩ := hmarker
    rw [hmarker] at hat
    left
    refine ⟨rfl, hmarker, ?_⟩
    cases hinside : inside double (c :: s) with
    | nil => simp [inside] at hinside
    | cons a r =>
        rw [hinside] at hat
        exact quotedFrom_marker hat
  · have hfree : column = 0 → opensMarker (c :: s) = false := by simpa using hmarker
    right
    refine ⟨hfree, ?_⟩
    rw [inside_cons, List.append_assoc] at hat ⊢
    by_cases hspace : c = ' '
    · subst hspace
      refine ⟨line, column + 1, Nat.le_refl line, by simp [isSeparator], ?_⟩
      rw [(verbatim_of_isOpenGap (by decide)).encode_eq, List.singleton_append, quotedFrom_blank]
      rfl
    by_cases hseparator : isSeparator c = true
    · have hopen : isOpenGap c = true := by simp [isOpenGap, hseparator]
      refine ⟨line + 1, 0, Nat.le_succ line, by simp [hseparator], ?_⟩
      rw [(verbatim_of_isOpenGap hopen).encode_eq, List.singleton_append,
        quotedFrom_separator hseparator,
        QuotedState.read_separator hseparator]
    · have hopen : isOpenGap c = false := by simp [isOpenGap, hspace, hseparator]
      have hlength : (encode double c).length ≠ 0 := by
        rcases exists_encode_eq_cons (hs c (List.mem_cons_self ..)) with hc | ⟨a, t, hc, -⟩ <;>
          simp [hc]
      refine ⟨line, column + (encode double c).length, Nat.le_refl line, ?_, ?_⟩
      · simp only [hseparator, iff_false, Bool.false_eq_true]
        omega
      · rw [quotedFrom_encode (hs c (List.mem_cons_self ..)) hopen, QuotedState.read_word hopen]
        intro hcolumn
        rw [hat, hfree hcolumn]

/-- Without a marker behind a separator the whole string is read. -/
theorem exists_quotedFrom_inside_eq_ok {q : QuotedState} (hq : q.skip = 0)
    (hs : ∀ c ∈ s, Quotable double c) (htail : Source.atGap tail = true) (line column : Nat)
    (hstart : column = 0 → opensMarker s = false) (hmarked : Unmarked s) :
    ∃ line' column', line ≤ line' ∧
      quotedFrom double q line column (inside double s ++ tail) =
        .ok ((s.foldl QuotedState.read q).finish, ⟨tail, line', column'⟩) := by
  induction s generalizing q line column with
  | nil =>
      obtain ⟨out, gap, skip⟩ := q
      obtain rfl : skip = 0 := hq
      exact ⟨line, column + 1, Nat.le_refl line, quotedFrom_close htail⟩
  | cons c s ih =>
      obtain ⟨hhead, hrest⟩ := Source.unmarked_cons.mp hmarked
      rcases quotedFrom_inside_cons hq hs htail line column with
        ⟨hcolumn, hmarker, -⟩ | ⟨-, line₁, column₁, hle, hcolumn, hread⟩
      · rw [hstart hcolumn] at hmarker
        exact absurd hmarker (by decide)
      · obtain ⟨line', column', hle', hstop⟩ := ih (q.skip_read c)
          (fun a ha => hs a (List.mem_cons_of_mem c ha)) line₁ column₁
          (fun h => hhead (hcolumn.mp h)) hrest
        refine ⟨line', column', Nat.le_trans hle hle', ?_⟩
        rw [hread, List.foldl_cons, hstop]

/-- A marker behind a separator leaves the quote open. -/
theorem quotedFrom_inside_eq_error {q : QuotedState} (hq : q.skip = 0)
    (hs : ∀ c ∈ s, Quotable double c) (htail : Source.atGap tail = true) (line column : Nat)
    (hmarked : ¬((column = 0 → opensMarker s = false) ∧ Unmarked s)) :
    quotedFrom double q line column (inside double s ++ tail) = .error .unclosedQuote := by
  induction s generalizing q line column with
  | nil =>
      apply absurd _ hmarked
      exact ⟨fun _ => rfl, Source.unmarked_nil⟩
  | cons c s ih =>
      rcases quotedFrom_inside_cons hq hs htail line column with
        ⟨-, -, herror⟩ | ⟨hstart, line', column', -, hcolumn, hread⟩
      · exact herror
      · rw [hread]
        apply ih (q.skip_read c)
        · exact fun a ha => hs a (List.mem_cons_of_mem c ha)
        · rintro ⟨hhead, hrest⟩
          apply hmarked
          refine ⟨hstart, Source.unmarked_cons.mpr ⟨?_, hrest⟩⟩
          intro hc
          exact hhead (hcolumn.mpr hc)

end Token

end Marginalia.Yaml
