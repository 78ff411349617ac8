import Marginalia.Proofs.Yaml.PlainComment
import Marginalia.Proofs.Yaml.Quoted

/-!
# How a string is spelled

A string stands in a line bare or between quotes.  Between quotes a piece of the
line may stand for one character of the string: a quote that is written twice,
or a backslash with what follows it.  `Token.Encloses` is the relation of what
is written to what is read, for both kinds of quotes, and every text that the
reader takes for a quoted string satisfies it.  A written piece has more
characters other than white space than what it stands for, so what stands
between the quotes is the string itself only where there is no such piece.
-/

namespace Marginalia

open CharClass

namespace Text

/-- The number of characters other than white space. -/
def weight (t : Text) : Nat :=
  t.countP fun c => !isWhite c

@[simp] theorem weight_nil : weight [] = 0 := rfl

@[simp] theorem weight_append (s t : Text) : weight (s ++ t) = weight s + weight t :=
  List.countP_append

theorem weight_cons (c : Char) (t : Text) :
    weight (c :: t) = (if isWhite c then 0 else 1) + weight t := by
  cases hc : isWhite c with
  | true => simp [weight, hc]
  | false => simp [weight, hc, Nat.add_comm]

theorem weight_eq_zero {t : Text} (ht : ∀ c ∈ t, isWhite c = true) : weight t = 0 := by
  simpa [weight, List.countP_eq_zero] using ht

theorem weight_trimEnd (t : Text) : weight (trimEnd t) = weight t := by
  have hsplit := congrArg weight (trimEnd_append_endWhite t)
  rwa [weight_append, weight_eq_zero fun c => isWhite_of_mem_endWhite, Nat.add_zero] at hsplit

theorem weight_trimStart (t : Text) : weight (trimStart t) = weight t := by
  have hsplit : t.takeWhile isWhite ++ trimStart t = t := List.takeWhile_append_dropWhile
  have hweight := congrArg weight hsplit
  rwa [weight_append, weight_eq_zero fun c => List.mem_takeWhile_imp, Nat.zero_add] at hweight

theorem weight_trim (t : Text) : weight (trim t) = weight t := by
  rw [← trimStart_trimEnd, weight_trimStart, weight_trimEnd]

end Text

namespace Yaml

open Source (isBreak)

namespace Token

/-! ## Escapes -/

theorem isSome_hexValue?_of_toNatBase? {base n : Nat} {t : Text}
    (h : Text.toNatBase? base t = some n) : ∀ c ∈ t, (hexValue? c).isSome = true := by
  have hnone : ∀ t : Text, t.foldl (fun acc c => acc.bind fun n => (hexValue? c).bind fun d =>
      if d < base then some (n * base + d) else none) none = none := by
    intro t
    induction t with
    | nil => rfl
    | cons c t ih => simpa using ih
  have hfold : ∀ (t : Text) (m : Nat), t.foldl (fun acc c => acc.bind fun n =>
      (hexValue? c).bind fun d => if d < base then some (n * base + d) else none) (some m) =
        some n → ∀ c ∈ t, (hexValue? c).isSome = true := by
    intro t
    induction t with
    | nil => simp
    | cons c t ih =>
        intro m hm
        cases hc : hexValue? c with
        | none => simp [hc, hnone] at hm
        | some d =>
            rw [List.foldl_cons, Option.bind_some, hc, Option.bind_some] at hm
            split at hm
            · exact List.forall_mem_cons.mpr ⟨by rw [hc]; rfl, ih _ hm⟩
            · simp [hnone] at hm
  unfold Text.toNatBase? at h
  split at h
  · cases h
  · exact hfold t 0 h

theorem exists_of_hexEscape? {k : Nat} {r : Text} {c : Char} (h : hexEscape? k r = some c) :
    ∃ ds r', r = ds ++ r' ∧ ds.length = k ∧ ∀ e ∈ ds, e ≠ '"' ∧ e ≠ '\\' := by
  unfold hexEscape? at h
  split at h
  · cases h
  · next hlength =>
      obtain ⟨n, hn, -⟩ := Option.bind_eq_some_iff.mp h
      refine ⟨r.take k, r.drop k, (List.take_append_drop k r).symm, ?_, fun e he => ?_⟩
      · rw [List.length_take]
        omega
      · have hdigit := isSome_hexValue?_of_toNatBase? hn e he
        constructor <;>
        · rintro rfl
          exact absurd hdigit (by decide)

/-- An escape is a letter, which may be a quote for itself or white space for
itself, with digits behind it. -/
theorem exists_of_escape? {t : Text} {c : Char} {n : Nat} (h : escape? t = some (c, n)) :
    ∃ d ds r, t = d :: (ds ++ r) ∧ n = ds.length + 1 ∧ (d = '"' → c = '"') ∧
      (isWhite c = false → isWhite d = false) ∧ ∀ e ∈ ds, e ≠ '"' ∧ e ≠ '\\' := by
  have hletter : ∀ {d e : Char} {r : Text}, some (e, 1) = some (c, n) → (d = '"' → e = '"') →
      (isWhite e = false → isWhite d = false) →
      ∃ d' ds r', d :: r = d' :: (ds ++ r') ∧ n = ds.length + 1 ∧ (d' = '"' → c = '"') ∧
        (isWhite c = false → isWhite d' = false) ∧ ∀ e ∈ ds, e ≠ '"' ∧ e ≠ '\\' := by
    intro d e r he hquote hwhite
    obtain ⟨rfl, rfl⟩ := Prod.mk.inj (Option.some.inj he)
    exact ⟨d, [], r, rfl, rfl, hquote, hwhite, by simp⟩
  have hdigits : ∀ {d : Char} {k : Nat} {r : Text},
      (hexEscape? k r).map (·, k + 1) = some (c, n) → d ≠ '"' → isWhite d = false →
      ∃ d' ds r', d :: r = d' :: (ds ++ r') ∧ n = ds.length + 1 ∧ (d' = '"' → c = '"') ∧
        (isWhite c = false → isWhite d' = false) ∧ ∀ e ∈ ds, e ≠ '"' ∧ e ≠ '\\' := by
    intro d k r hread hquote hwhite
    obtain ⟨e, he, hpair⟩ := Option.map_eq_some_iff.mp hread
    obtain ⟨rfl, rfl⟩ := Prod.mk.inj hpair
    obtain ⟨ds, r', rfl, hlength, hds⟩ := exists_of_hexEscape? he
    exact ⟨d, ds, r', rfl, by rw [hlength], fun h => absurd h hquote, fun _ => hwhite, hds⟩
  unfold escape? at h
  split at h
  all_goals first
    | exact hletter h (by decide) (by decide)
    | exact hdigits h (by decide) (by decide)
    | cases h

/-! ## Between quotes -/

/-- A piece of a quoted string that is longer than the one character for which
it stands. -/
inductive Escape : (double : Bool) → Text → Char → Prop
  | apostrophe : Escape false ['\'', '\''] '\''
  | backslash {x r : Text} {c : Char} (h : escape? (x ++ r) = some (c, x.length)) :
      Escape true ('\\' :: x) c

/-- What is written between quotes, and the string for which it stands. -/
inductive Encloses (double : Bool) : Text → Text → Prop
  | nil : Encloses double [] []
  | char {c : Char} {w s : Text} (hmark : c ≠ mark double) (hbackslash : double = true → c ≠ '\\')
      (h : Encloses double w s) : Encloses double (c :: w) (c :: s)
  | escape {x w s : Text} {c : Char} (hx : Escape double x c) (h : Encloses double w s) :
      Encloses double (x ++ w) (c :: s)

section Enclosed

variable {double : Bool} {x w s : Text} {c : Char}

theorem exists_of_escape_true (h : Escape true x c) :
    ∃ d ds, x = '\\' :: d :: ds ∧ (d = '"' → c = '"') ∧ (isWhite c = false → isWhite d = false) ∧
      ∀ e ∈ ds, e ≠ '"' ∧ e ≠ '\\' := by
  cases h with
  | @backslash y r c h =>
      obtain ⟨d, ds, r', hy, hlength, hquote, hwhite, hds⟩ := exists_of_escape? h
      have hcut : y = d :: ds := by
        have hsame : y ++ r = (d :: ds) ++ r' := hy
        exact (List.append_inj hsame (by rw [hlength]; rfl)).1
      exact ⟨d, ds, by rw [hcut], hquote, hwhite, hds⟩

/-- A quote in a piece of a string stands for a quote. -/
theorem Escape.eq_mark (h : Escape double x c) (hmark : mark double ∈ x) : c = mark double := by
  cases double with
  | false => cases h with | apostrophe => rfl
  | true =>
      obtain ⟨d, ds, rfl, hquote, -, hds⟩ := exists_of_escape_true h
      have hmark : '"' ∈ '\\' :: d :: ds := hmark
      simp only [List.mem_cons, Char.reduceEq, false_or] at hmark
      rcases hmark with hd | hmem
      · exact hquote hd.symm
      · exact absurd rfl (hds _ hmem).1

theorem Escape.weight_lt (h : Escape double x c) : Text.weight [c] < Text.weight x := by
  cases double with
  | false => cases h with | apostrophe => decide
  | true =>
      obtain ⟨d, ds, rfl, -, hwhite, -⟩ := exists_of_escape_true h
      have hbackslash : isWhite '\\' = false := by decide
      simp only [Text.weight_cons, Text.weight_nil, hbackslash]
      cases hc : isWhite c with
      | true =>
          simp only [Bool.false_eq_true, reduceIte]
          omega
      | false =>
          simp only [hwhite hc, Bool.false_eq_true, reduceIte]
          omega

/-- A quote between quotes stands for one. -/
theorem Encloses.mark_mem (h : Encloses double w s) (hmark : mark double ∈ w) :
    mark double ∈ s := by
  induction h with
  | nil => cases hmark
  | char hne _ _ ih =>
      rcases List.mem_cons.mp hmark with rfl | hmem
      · exact absurd rfl hne
      · exact List.mem_cons_of_mem _ (ih hmem)
  | escape hx _ ih =>
      rcases List.mem_append.mp hmark with hmem | hmem
      · exact List.mem_cons.mpr (Or.inl (hx.eq_mark hmem).symm)
      · exact List.mem_cons_of_mem _ (ih hmem)

/-- What is written weighs no less than the string, and no more only where it is
the string. -/
theorem Encloses.weight_le (h : Encloses double w s) :
    Text.weight s ≤ Text.weight w ∧ (Text.weight s = Text.weight w → w = s) := by
  induction h with
  | nil => simp
  | @char c w s _ _ _ ih =>
      rw [Text.weight_cons, Text.weight_cons]
      exact ⟨Nat.add_le_add_left ih.1 _, fun h => by rw [ih.2 (Nat.add_left_cancel h)]⟩
  | @escape x w s c hx _ ih =>
      have hlt := hx.weight_lt
      have hcons : Text.weight (c :: s) = Text.weight [c] + Text.weight s :=
        Text.weight_append [c] s
      rw [hcons, Text.weight_append]
      omega

/-- A string without quotes and backslashes between quotes. -/
theorem Encloses.mark_not_mem (h : Encloses double w w) : mark double ∉ w := by
  generalize hs : w = s at h
  have hsame : Encloses double w s := by rw [hs]; exact h
  clear h
  induction hsame with
  | nil => simp
  | char hne _ h ih =>
      obtain ⟨-, rfl⟩ := List.cons.inj hs
      simp [Ne.symm hne, ih rfl]
  | @escape x w s c hx h ih =>
      have hlt := hx.weight_lt
      have hle := h.weight_le.1
      have hsum := congrArg Text.weight hs
      have hcons : Text.weight (c :: s) = Text.weight [c] + Text.weight s :=
        Text.weight_append [c] s
      rw [hcons, Text.weight_append] at hsum
      omega

end Enclosed

@[simp] theorem isWhite_mark (double : Bool) : isWhite (mark double) = false := by
  cases double <;> decide

theorem weight_quoted (double : Bool) (w : Text) :
    Text.weight (mark double :: (w ++ [mark double])) = Text.weight w + 2 := by
  rw [Text.weight_cons, Text.weight_append, Text.weight_cons, isWhite_mark, Text.weight_nil]
  simp only [Bool.false_eq_true, reduceIte]
  omega

theorem bare_quoted (double : Bool) (w : Text) :
    Text.Bare (mark double :: (w ++ [mark double])) := by
  refine ⟨by simp, ?_⟩
  rw [← List.cons_append, List.getLast?_concat]
  simp

/-! ## Read quotes -/

/-- Behind `front`, which was read and stands in reverse, a text encloses the
rest of a string. -/
def EndsAs (double : Bool) (name front t : Text) : Prop :=
  ∃ w s, t = w ++ [mark double] ∧ Encloses double w s ∧ name = front.reverse ++ s

section Ends

variable {double : Bool} {name front t x : Text} {c : Char}

theorem endsAs_close : EndsAs double front.reverse front [mark double] :=
  ⟨[], [], rfl, .nil, by simp⟩

theorem EndsAs.char (hmark : c ≠ mark double) (hbackslash : double = true → c ≠ '\\')
    (h : EndsAs double name (c :: front) t) : EndsAs double name front (c :: t) := by
  obtain ⟨w, s, rfl, hw, rfl⟩ := h
  exact ⟨c :: w, c :: s, rfl, .char hmark hbackslash hw, by simp⟩

theorem EndsAs.escape (hx : Escape double x c) (h : EndsAs double name (c :: front) t) :
    EndsAs double name front (x ++ t) := by
  obtain ⟨w, s, rfl, hw, rfl⟩ := h
  exact ⟨x ++ w, c :: s, by simp, .escape hx hw, by simp⟩

theorem EndsAs.blank (hc : Source.isBlank c = true) (h : EndsAs double name (c :: front) t) :
    EndsAs double name front (c :: t) := by
  have hne : ∀ d, Source.isBlank d = false → c ≠ d := fun d hd => (ne_of_class hd hc).symm
  refine h.char ?_ fun _ => hne _ (by decide)
  cases double <;> exact hne _ (by decide)

/-- What the reader takes for the next piece of a quoted string, when no line
ends here: the closing quote, a blank, a character that stands for itself or an
escape. -/
theorem quotedFrom_cases {r out written : Text} {line column : Nat} {stop : Cursor}
    (hinline : ∀ d ∈ c :: r, isBreak d = false)
    (h : quotedFrom double ⟨out, .blanks written, 0⟩ line column (c :: r) = .ok (name, stop)) :
    (c = mark double ∧ stop.rest = r ∧ name = (written ++ out).reverse) ∨
    (Source.isBlank c = true ∧
      quotedFrom double ⟨out, .blanks (c :: written), 0⟩ line (column + 1) r = .ok (name, stop)) ∨
    (c ≠ mark double ∧ (double = true → c ≠ '\\') ∧
      quotedFrom double ⟨c :: (written ++ out), .blanks [], 0⟩ line (column + 1) r =
        .ok (name, stop)) ∨
    ∃ x r' e, r = x ++ r' ∧ Escape double (c :: x) e ∧
      quotedFrom double ⟨e :: (written ++ out), .blanks [], x.length⟩ line (column + 1) r =
        .ok (name, stop) := by
  obtain ⟨hc, hr⟩ := List.forall_mem_cons.mp hinline
  have hclose : .ok ((written ++ out).reverse, ⟨r, line, column + 1⟩) =
      (.ok (name, stop) : Except Error (Text × Cursor)) →
      stop.rest = r ∧ name = (written ++ out).reverse := by
    rintro ⟨⟩
    exact ⟨rfl, rfl⟩
  rw [quotedFrom] at h
  simp only [Nat.lt_irrefl, if_false, hc, Bool.false_eq_true, Gap.empty, Gap.fold] at h
  split at h
  · cases h
  split at h
  · next hblank => exact Or.inr (Or.inl ⟨hblank, h⟩)
  cases double with
  | false =>
      simp only [Bool.false_eq_true, if_false] at h
      split at h
      · next hquote =>
          split at h
          · next hnext =>
              obtain ⟨r', rfl⟩ := List.head?_eq_some_iff.mp hnext
              subst hquote
              exact Or.inr (Or.inr (Or.inr ⟨['\''], r', _, rfl, .apostrophe, h⟩))
          · exact Or.inl ⟨hquote, hclose h⟩
      · next hquote => exact Or.inr (Or.inr (Or.inl ⟨hquote, by simp, h⟩))
  | true =>
      simp only [if_true] at h
      split at h
      · next hquote => exact Or.inl ⟨hquote, hclose h⟩
      next hquote =>
      split at h
      · next hbackslash =>
          have hbreak : (r.head?.map isBreak).getD false = false := by
            cases r with
            | nil => rfl
            | cons d r => exact hr d (List.mem_cons_self ..)
          simp only [hbreak, Bool.false_eq_true, if_false] at h
          split at h
          · next e k hescape =>
              obtain ⟨d, ds, r', rfl, rfl, -⟩ := exists_of_escape? hescape
              subst hbackslash
              exact Or.inr (Or.inr (Or.inr ⟨d :: ds, r', e, rfl, .backslash hescape, h⟩))
          · cases h
      · next hbackslash => exact Or.inr (Or.inr (Or.inl ⟨hquote, fun _ => hbackslash, h⟩))

/-- What the reader takes on one line for the rest of a quoted string encloses
the rest of its value. -/
theorem endsAs_of_quotedFrom {out written : Text} {line column : Nat} {stop : Cursor}
    (hinline : ∀ c ∈ t, isBreak c = false) (hstop : stop.rest = [])
    (h : quotedFrom double ⟨out, .blanks written, 0⟩ line column t = .ok (name, stop)) :
    EndsAs double name (written ++ out) t := by
  -- an escape takes several characters at once
  induction hn : t.length using Nat.strongRecOn generalizing t out written column with
  | ind n ih =>
      cases t with
      | nil => cases h
      | cons c r =>
          have hr : ∀ d ∈ r, isBreak d = false := (List.forall_mem_cons.mp hinline).2
          have hlt : r.length < n := by
            rw [← hn]
            exact Nat.lt_succ_self _
          rcases quotedFrom_cases hinline h with ⟨rfl, hrest, rfl⟩ | ⟨hblank, hmore⟩ |
            ⟨hmark, hbackslash, hmore⟩ | ⟨x, r', e, rfl, hescape, hmore⟩
          · obtain rfl : r = [] := hrest.symm.trans hstop
            exact endsAs_close
          · exact .blank hblank (ih r.length hlt hr hmore rfl)
          · exact .char hmark hbackslash (ih r.length hlt hr hmore rfl)
          · rw [quotedFrom_skip] at hmore
            rw [List.length_append] at hlt
            exact .escape hescape (ih r'.length (Nat.lt_of_le_of_lt (Nat.le_add_left ..) hlt)
              (fun d hd => hr d (List.mem_append_right x hd)) hmore rfl)

end Ends

end Token

/-! ## A spelled string at the place of a value -/

namespace Scalar

open Token (Encloses Escape mark)

namespace CommentState

def between (double afterWhite : Bool) : CommentState :=
  if double then inside afterWhite else quoted afterWhite

theorem step_between {double w : Bool} {c : Char} (hmark : c ≠ mark double)
    (hbackslash : double = true → c ≠ '\\') :
    (between double w).step c = between double (isWhite c) := by
  cases double with
  | false => exact step_quoted w hmark
  | true => exact step_inside w hmark (hbackslash rfl)

theorem opensComment_between (double w : Bool) (c : Char) :
    (between double w).opensComment c = false := by
  cases double <;> exact opensComment_eq_false _ rfl c

end CommentState

open CommentState

theorem crosses_singleton {s : CommentState} {c : Char} (hc : s.opensComment c = false) :
    Crosses s [c] (s.step c) :=
  .cons hc (.nil _)

theorem crosses_escape_between {double : Bool} {x : Text} {c : Char} (hx : Escape double x c)
    (w : Bool) : ∃ w', Crosses (between double w) x (between double w') := by
  cases double with
  | false =>
      cases hx with
      | apostrophe => exact ⟨false, .cons rfl (.cons rfl (.nil _))⟩
  | true =>
      obtain ⟨d, ds, rfl, -, -, hds⟩ := Token.exists_of_escape_true hx
      obtain ⟨w', hw'⟩ := crosses_inside hds (isWhite d)
      have hescaped : ((inside w).step '\\').opensComment d = false := by
        simp [opensComment, step, inside]
      refine ⟨w', .cons (opensComment_between true w '\\') (.cons hescaped ?_)⟩
      have hstep : ((between true w).step '\\').step d = inside (isWhite d) :=
        step_step_inside w d
      rw [hstep]
      exact hw'

theorem crosses_encloses {double : Bool} {written s : Text} (h : Encloses double written s)
    (w : Bool) : ∃ w', Crosses (between double w) written (between double w') := by
  induction h generalizing w with
  | nil => exact ⟨w, .nil _⟩
  | @char c _ _ hmark hbackslash _ ih =>
      obtain ⟨w', hw'⟩ := ih (isWhite c)
      refine ⟨w', .cons (opensComment_between double w c) ?_⟩
      rwa [step_between hmark hbackslash]
  | escape hx _ ih =>
      obtain ⟨w₁, h₁⟩ := crosses_escape_between hx w
      obtain ⟨w₂, h₂⟩ := ih w₁
      exact ⟨w₂, h₁.append h₂⟩

theorem Crosses.after_eq {s s' : CommentState} {t : Text} (h : Crosses s t s') :
    s.after t = s' := by
  induction h with
  | nil => rfl
  | cons _ _ ih => exact ih

theorem Crosses.of_append {s s' : CommentState} {t u : Text} (h : Crosses s (t ++ u) s') :
    Crosses s t (s.after t) ∧ Crosses (s.after t) u s' := by
  induction t generalizing s with
  | nil => exact ⟨.nil s, h⟩
  | cons c t ih =>
      cases h with
      | cons hc h => exact ⟨.cons hc (ih h).1, (ih h).2⟩

/-- The reader of a value position takes a text for one value: no comment opens
in it, and each quote is closed. -/
def Whole (t : Text) : Prop :=
  ∃ w, Crosses .start t (outside w)

theorem whole_of_encloses {double : Bool} {written s : Text} (h : Encloses double written s) :
    Whole (mark double :: (written ++ [mark double])) := by
  obtain ⟨w, hw⟩ := crosses_encloses h false
  have hopen : (outside true).step (mark double) = between double false := by
    cases double <;> rfl
  have hclose : (between double w).step (mark double) = outside false := by
    cases double <;> rfl
  have hmark : (outside true).opensComment (mark double) = false := by
    cases double <;> rfl
  refine ⟨false, .cons hmark ?_⟩
  rw [CommentState.start, ← outside, hopen, ← hclose]
  exact hw.append (crosses_singleton (opensComment_between double w _))

/-- A text that is read as a name on one line: bare, or between quotes of either
kind. -/
inductive Spells (name : Text) : Text → Prop
  | bare {c : Char} {r : Text} {n : Nat} (hname : name = c :: r)
      (hstarts : Scan.startsPlain false c r = true)
      (hread : Token.plain false 0 ⟨name, 0, 1⟩ = .ok ⟨name, ⟨[], 0, n⟩, false⟩) :
      Spells name name
  | quoted (double : Bool) {rest : Text} {n : Nat}
      (hread : Token.quoted double ⟨mark double :: rest, 0, 1⟩ = .ok (name, ⟨[], 0, n⟩)) :
      Spells name (mark double :: rest)

theorem Spells.cases {name token : Text} (h : Spells name token)
    (hinline : ∀ c ∈ token, isBreak c = false) :
    (token = name ∧ ∃ c r, name = c :: r ∧ c ≠ '"' ∧ c ≠ '\'' ∧ c ≠ '#' ∧ c ≠ ' ') ∨
      ∃ double written, token = mark double :: (written ++ [mark double]) ∧
        Encloses double written name := by
  cases h with
  | @bare c r n hname hstarts hread =>
      refine Or.inl ⟨rfl, c, r, hname, ?_, ?_, ?_, ?_⟩ <;>
      · rintro rfl
        cases hstarts
  | @quoted double rest n hread =>
      obtain ⟨written, s, rfl, hs, rfl⟩ : Token.EndsAs double name [] rest :=
        Token.endsAs_of_quotedFrom (fun c hc => hinline c (List.mem_cons_of_mem _ hc)) rfl hread
      exact Or.inr ⟨double, written, rfl, hs⟩

theorem Spells.exists_of_self {name : Text} (h : Spells name name)
    (hinline : ∀ c ∈ name, isBreak c = false) :
    ∃ c r, name = c :: r ∧ c ≠ '"' ∧ c ≠ '\'' ∧ c ≠ '#' ∧ c ≠ ' ' := by
  rcases h.cases hinline with ⟨-, hbare⟩ | ⟨double, written, hname, hwritten⟩
  · exact hbare
  · have hweight := congrArg Text.weight hname
    have hle := hwritten.weight_le.1
    rw [Token.weight_quoted] at hweight
    omega

theorem Spells.encloses_self {name : Text} {double : Bool}
    (h : Spells name (mark double :: (name ++ [mark double])))
    (hinline : ∀ c ∈ name, isBreak c = false) : Encloses double name name := by
  have hbreak : isBreak (mark double) = false := by cases double <;> decide
  have hinline' : ∀ c ∈ mark double :: (name ++ [mark double]), isBreak c = false := by
    intro c hc
    simp only [List.mem_cons, List.mem_append, List.not_mem_nil, or_false] at hc
    rcases hc with rfl | hc | rfl
    · exact hbreak
    · exact hinline c hc
    · exact hbreak
  rcases h.cases hinline' with ⟨hsame, -⟩ | ⟨double', written, hsame, hwritten⟩
  · have hweight := congrArg Text.weight hsame
    rw [Token.weight_quoted] at hweight
    omega
  · obtain ⟨hmark, hrest⟩ := List.cons.inj hsame
    obtain rfl : double = double' := by
      revert hmark
      cases double <;> cases double' <;> decide
    rwa [← List.append_cancel_right hrest] at hwritten

end Scalar

/-! ## Quotes taken off -/

namespace Patch

open Token (mark)

theorem unquote_quoted (double : Bool) (w : Text) :
    unquote (mark double :: (w ++ [mark double])) = w := by
  have hw : Text.unwrap? (mark double) (mark double :: (w ++ [mark double])) = some w :=
    Text.unwrap?_eq_some_iff.mpr rfl
  cases double with
  | true =>
      have hdouble : Text.unwrap? '"' (mark true :: (w ++ [mark true])) = some w := hw
      rw [unquote, hdouble]
      rfl
  | false =>
      have hnone : Text.unwrap? '"' (mark false :: (w ++ [mark false])) = none := rfl
      have hsingle : Text.unwrap? '\'' (mark false :: (w ++ [mark false])) = some w := hw
      rw [unquote, hnone, hsingle]
      rfl

/-- A text is between quotes, or it is left as it is. -/
theorem unquote_cases (t : Text) :
    unquote t = t ∨ ∃ double, t = mark double :: (unquote t ++ [mark double]) := by
  cases hdouble : Text.unwrap? '"' t with
  | some w =>
      have ht : t = mark true :: (w ++ [mark true]) := Text.unwrap?_eq_some_iff.mp hdouble
      rw [ht, unquote_quoted]
      exact Or.inr ⟨true, rfl⟩
  | none =>
      cases hsingle : Text.unwrap? '\'' t with
      | some w =>
          have ht : t = mark false :: (w ++ [mark false]) := Text.unwrap?_eq_some_iff.mp hsingle
          rw [ht, unquote_quoted]
          exact Or.inr ⟨false, rfl⟩
      | none =>
          left
          rw [unquote, hdouble, hsingle]
          rfl

theorem unquote_of_bare {c : Char} (hdouble : c ≠ '"') (hsingle : c ≠ '\'') (t : Text) :
    unquote (c :: t) = c :: t := by
  rcases unquote_cases (c :: t) with hsame | ⟨double, hquoted⟩
  · exact hsame
  · obtain ⟨hc, -⟩ := List.cons.inj hquoted
    cases double with
    | false => exact absurd hc hsingle
    | true => exact absurd hc hdouble

theorem weight_unquote_le (t : Text) : Text.weight (unquote t) ≤ Text.weight t := by
  rcases unquote_cases t with hsame | ⟨double, hquoted⟩
  · rw [hsame]
  · have hweight := congrArg Text.weight hquoted
    rw [Token.weight_quoted] at hweight
    omega

end Patch

end Yaml

end Marginalia
