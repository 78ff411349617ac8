import Marginalia.Proofs.Yaml.Rendered
import Marginalia.Yaml.Token.Quoted
import Mathlib.Data.List.Chain

/-!
# Folding in quoted strings

A reader of a quoted string folds the white space around its breaks: blanks
beside a break do not count.  A written string has only one kind of break
between its quotes, the line and paragraph separators, and they stand for
themselves.  So the string is read as it is exactly when no space stands beside
a separator.
-/

namespace Marginalia.Yaml

open CharClass

namespace Source

/-- A line or paragraph separator. -/
def isSeparator (c : Char) : Bool :=
  c == '\u2028' || c == '\u2029'

/-- A space or a separator: the white space that is written as it is between
quotes. -/
def isOpenGap (c : Char) : Bool :=
  c == ' ' || isSeparator c

/-- A document marker with white space behind it that no escape hides. -/
def opensMarker : Text → Bool
  | '-' :: '-' :: '-' :: c :: _ => isOpenGap c
  | '.' :: '.' :: '.' :: c :: _ => isOpenGap c
  | _ => false

/-- No separator has a document marker behind it. -/
def Unmarked (s : Text) : Prop :=
  ∀ front c back, s = front ++ c :: back → isSeparator c = true → opensMarker back = false

/-- Two characters that keep apart: no space stands beside a separator. -/
def Apart (a b : Char) : Prop :=
  ¬(a = ' ' ∧ isSeparator b = true) ∧ ¬(isSeparator a = true ∧ b = ' ')

theorem isBreak_of_isSeparator {c : Char} (hc : isSeparator c = true) : isBreak c = true := by
  simp only [isSeparator, Bool.or_eq_true] at hc
  rcases hc with hc | hc <;> simp [isBreak, hc]

theorem isGap_of_isOpenGap {c : Char} (hc : isOpenGap c = true) : isGap c = true := by
  simp only [isOpenGap, Bool.or_eq_true, beq_iff_eq] at hc
  rcases hc with rfl | hc
  · rfl
  · simp [isGap, isBreak_of_isSeparator hc]

theorem isGap_eq_isOpenGap {c : Char} (hc : isControl c = false) : isGap c = isOpenGap c := by
  have htab : (c == '\t') = false := beq_eq_false_iff_ne.mpr (ne_of_class hc (by decide))
  have hfeed : (c == '\n') = false := beq_eq_false_iff_ne.mpr (ne_of_class hc (by decide))
  simp only [isGap, isBlank, isBreak, isOpenGap, isSeparator, htab, hfeed, Bool.or_false,
    Bool.false_or]

theorem isSeparator_ne_space {c : Char} (hc : isSeparator c = true) : c ≠ ' ' :=
  (ne_of_class (by decide) hc).symm

theorem unmarked_nil : Unmarked [] := by
  intro front c back h
  simp at h

theorem unmarked_cons {c : Char} {s : Text} :
    Unmarked (c :: s) ↔ (isSeparator c = true → opensMarker s = false) ∧ Unmarked s := by
  constructor
  · intro h
    constructor
    · intro hc
      exact h [] c s rfl hc
    · intro front d back hs
      exact h (c :: front) d back (by rw [hs, List.cons_append])
  · rintro ⟨hhead, htail⟩ front d back hs hd
    cases front with
    | nil =>
        obtain ⟨rfl, rfl⟩ := List.cons.inj hs
        exact hhead hd
    | cons a front =>
        obtain ⟨-, hs⟩ := List.cons.inj hs
        exact htail front d back hs hd

/-- A marker is three dashes or three dots with a gap behind them. -/
theorem atMarker_iff {t : Text} :
    atMarker t = true ↔
      ∃ d r, (d = '-' ∨ d = '.') ∧ t = d :: d :: d :: r ∧ atGap r = true := by
  constructor
  · intro h
    unfold atMarker at h
    split at h
    · next r => exact ⟨'-', r, Or.inl rfl, rfl, h⟩
    · next r => exact ⟨'.', r, Or.inr rfl, rfl, h⟩
    · exact absurd h (by decide)
  · rintro ⟨d, r, rfl | rfl, rfl, hr⟩ <;> exact hr

/-! What comes next is the same with a gap or nothing behind the text. -/

theorem atGap_append {x : Text} (hx : atGap x = true) (r : Text) : atGap (r ++ x) = atGap r := by
  cases r with
  | nil => exact hx
  | cons c r => rfl

theorem atMarker_append {x : Text} (hx : atGap x = true) (r : Text) :
    atMarker (r ++ x) = atMarker r := by
  rw [Bool.eq_iff_iff, atMarker_iff, atMarker_iff]
  constructor
  · rintro ⟨d, y, hd, hr, hy⟩
    -- no white space stands in the place of a dash or a dot
    have hmark : ∀ z, x ≠ d :: z := by
      rintro z rfl
      rcases hd with rfl | rfl
      · exact absurd (show isGap '-' = true from hx) (by decide)
      · exact absurd (show isGap '.' = true from hx) (by decide)
    rcases r with _ | ⟨a, _ | ⟨b, _ | ⟨c, r⟩⟩⟩
    · exact absurd hr (hmark _)
    · exact absurd (List.cons.inj hr).2 (hmark _)
    · exact absurd (List.cons.inj (List.cons.inj hr).2).2 (hmark _)
    · simp only [List.cons_append, List.cons.injEq] at hr
      obtain ⟨rfl, rfl, rfl, rfl⟩ := hr
      rw [atGap_append hx] at hy
      exact ⟨_, r, hd, rfl, hy⟩
  · rintro ⟨d, y, hd, rfl, hy⟩
    exact ⟨d, y ++ x, hd, rfl, (atGap_append hx y).trans hy⟩

theorem opensMarker_iff {s : Text} :
    opensMarker s = true ↔
      ∃ d c r, (d = '-' ∨ d = '.') ∧ s = d :: d :: d :: c :: r ∧ isOpenGap c = true := by
  constructor
  · intro h
    unfold opensMarker at h
    split at h
    · next c r => exact ⟨'-', c, r, Or.inl rfl, rfl, h⟩
    · next c r => exact ⟨'.', c, r, Or.inr rfl, rfl, h⟩
    · exact absurd h (by decide)
  · rintro ⟨d, c, r, rfl | rfl, rfl, hc⟩ <;> exact hc

end Source

open Source (isOpenGap isSeparator Apart)

namespace Gap

/-- The number of characters that a gap holds. -/
def size : Gap → Nat
  | blanks written => written.length
  | breaks first more => first.length + more.length
  | escaped => 0

@[simp] theorem size_empty : size empty = 0 := rfl

theorem length_fold_le (g : Gap) : g.fold.length ≤ g.size := by
  cases g with
  | blanks written => exact Nat.le_refl _
  | escaped => exact Nat.le_refl _
  | breaks first more =>
      simp only [fold, size]
      split_ifs with hfirst hmore
      · simp [hfirst]
      · exact Nat.le_add_left ..
      · rw [List.length_append]
        omega

theorem size_blank_le (g : Gap) (c : Char) : (g.blank c).size ≤ g.size + 1 := by
  cases g <;> simp [blank, size]

theorem size_lineBreak_le (g : Gap) (c : Char) : (g.lineBreak c).size ≤ g.size + 1 := by
  cases g with
  | blanks written => simp [lineBreak, size]
  | breaks first more =>
      simp only [lineBreak, size, List.length_cons]
      omega
  | escaped => simp [lineBreak, size]

theorem fold_breaks {c : Char} (hc : isSeparator c = true) (more : Text) :
    (breaks [c] more).fold = more ++ [c] := by
  apply if_neg
  rintro h
  obtain ⟨rfl, -⟩ := List.cons.inj h
  exact absurd hc (by decide)

/-- The gap is the white space behind a last character. -/
def Ends (last : Option Char) : Gap → Prop
  | blanks [] => ∀ a ∈ last, isOpenGap a = false
  | blanks (_ :: _) => last = some ' '
  | breaks first _ =>
    (∃ c, first = [c] ∧ isSeparator c = true) ∧ ∃ a, last = some a ∧ isSeparator a = true
  | escaped => False

end Gap

namespace Token

/-! ## The string that is read -/

variable {c : Char} {s : Text}

namespace QuotedState

def start : QuotedState := ⟨[], .empty, 0⟩

/-- The state behind one more character of the string. -/
def read (q : QuotedState) (c : Char) : QuotedState :=
  if c = ' ' then ⟨q.out, q.gap.blank c, 0⟩
  else if isSeparator c then ⟨q.out, q.gap.lineBreak c, 0⟩
  else ⟨c :: (q.gap.fold ++ q.out), .empty, 0⟩

def finish (q : QuotedState) : Text :=
  (q.gap.fold ++ q.out).reverse

theorem skip_read (q : QuotedState) (c : Char) : (q.read c).skip = 0 := by
  unfold read
  split_ifs <;> rfl

theorem read_word {q : QuotedState} (hc : isOpenGap c = false) :
    q.read c = ⟨c :: (q.gap.fold ++ q.out), .empty, 0⟩ := by
  simp only [isOpenGap, Bool.or_eq_false_iff, beq_eq_false_iff_ne] at hc
  rw [read, if_neg hc.1, hc.2, if_neg (by decide)]

theorem read_separator {q : QuotedState} (hc : isSeparator c = true) :
    q.read c = ⟨q.out, q.gap.lineBreak c, 0⟩ := by
  rw [read, if_neg (Source.isSeparator_ne_space hc), if_pos hc]

end QuotedState

/-- What a reader makes of a quoted string. -/
def folded (s : Text) : Text :=
  (s.foldl QuotedState.read .start).finish

/-! ## What folding loses -/

namespace QuotedState

/-- The number of characters that a state holds. -/
def size (q : QuotedState) : Nat :=
  q.out.length + q.gap.size

theorem length_finish_le (q : QuotedState) : q.finish.length ≤ q.size := by
  have hgap := q.gap.length_fold_le
  rw [finish, List.length_reverse, List.length_append, size]
  omega

theorem size_read_le (q : QuotedState) (c : Char) : (q.read c).size ≤ q.size + 1 := by
  have hfold := q.gap.length_fold_le
  have hblank := q.gap.size_blank_le c
  have hbreak := q.gap.size_lineBreak_le c
  unfold read
  split_ifs <;> simp only [size, List.length_cons, List.length_append, Gap.size_empty] <;> omega

theorem length_finish_foldl_le (q : QuotedState) (s : Text) :
    (s.foldl read q).finish.length ≤ q.size + s.length := by
  induction s generalizing q with
  | nil => exact q.length_finish_le
  | cons c s ih =>
      have hrest := ih (q.read c)
      have hstep := q.size_read_le c
      rw [List.foldl_cons, List.length_cons]
      omega

/-- Nothing was lost of the text `p`, which is in reverse, and the gap is the
white space at its end. -/
structure Exact (q : QuotedState) (p : Text) : Prop where
  text : q.gap.fold ++ q.out = p
  size : q.size = p.length
  ends : q.gap.Ends p.head?
  apart : p.reverse.IsChain Apart

variable {q : QuotedState} {p : Text}

theorem exact_start : Exact .start [] :=
  ⟨rfl, rfl, fun _ ha => absurd ha (by simp), List.IsChain.nil⟩

/-- A character that keeps apart from the one before it is not lost. -/
theorem Exact.read (h : Exact q p) (hc : ∀ a ∈ p.head?, Apart a c) : Exact (q.read c) (c :: p) := by
  have hapart : (c :: p).reverse.IsChain Apart := by
    rw [List.reverse_cons, List.isChain_append]
    refine ⟨h.apart, List.isChain_singleton c, ?_⟩
    intro a ha b hb
    obtain rfl : c = b := by simpa using hb
    exact hc a (by rwa [List.getLast?_reverse] at ha)
  obtain ⟨out, gap, skip⟩ := q
  have htext : gap.fold ++ out = p := h.text
  have hsize : out.length + gap.size = p.length := h.size
  have hends : gap.Ends p.head? := h.ends
  by_cases hspace : c = ' '
  · subst hspace
    cases gap with
    | blanks written =>
        refine ⟨?_, ?_, rfl, hapart⟩
        · exact congrArg (' ' :: ·) htext
        · exact congrArg (· + 1) hsize
    | breaks first more =>
        obtain ⟨-, a, ha, hseparator⟩ := hends
        exact absurd ⟨hseparator, rfl⟩ (hc a ha).2
    | escaped => exact hends.elim
  by_cases hseparator : isSeparator c = true
  · rw [read_separator hseparator]
    cases gap with
    | blanks written =>
        cases written with
        | nil =>
            refine ⟨?_, ?_, ⟨⟨c, rfl, hseparator⟩, c, rfl, hseparator⟩, hapart⟩
            · exact (congrArg (· ++ out) (Gap.fold_breaks hseparator [])).trans
                (congrArg (c :: ·) htext)
            · exact congrArg (· + 1) hsize
        | cons b written => exact absurd ⟨rfl, hseparator⟩ (hc ' ' hends).1
    | breaks first more =>
        obtain ⟨⟨b, rfl, hb⟩, -⟩ := hends
        rw [Gap.fold_breaks hb] at htext
        refine ⟨?_, ?_, ⟨⟨b, rfl, hb⟩, c, rfl, hseparator⟩, hapart⟩
        · exact (congrArg (· ++ out) (Gap.fold_breaks hb (c :: more))).trans
            (congrArg (c :: ·) htext)
        · exact congrArg (· + 1) hsize
    | escaped => exact hends.elim
  · have hopen : isOpenGap c = false := by simp [isOpenGap, hspace, hseparator]
    rw [read_word hopen]
    refine ⟨congrArg (c :: ·) htext, ?_, ?_, hapart⟩
    · exact congrArg (fun t => t.length + 1) htext
    · intro a ha
      obtain rfl : c = a := by simpa using ha
      exact hopen

/-- A space and a separator beside each other are not both kept. -/
theorem Exact.size_read (h : Exact q p) (hc : ¬∀ a ∈ p.head?, Apart a c) :
    (q.read c).size ≤ q.size := by
  obtain ⟨out, gap, skip⟩ := q
  have hends : gap.Ends p.head? := h.ends
  simp only [not_forall] at hc
  obtain ⟨a, ha, hfold⟩ := hc
  have hcases : a = ' ' ∧ isSeparator c = true ∨ isSeparator a = true ∧ c = ' ' := by
    by_contra hno
    rw [not_or] at hno
    exact hfold hno
  rw [ha] at hends
  rcases hcases with ⟨rfl, hseparator⟩ | ⟨hseparator, rfl⟩
  · rw [read_separator hseparator]
    cases gap with
    | blanks written =>
        cases written with
        | nil => exact absurd (hends ' ' rfl) (by decide)
        | cons b written => simp [QuotedState.size, Gap.size, Gap.lineBreak]
    | breaks first more =>
        obtain ⟨-, b, hb, hspace⟩ := hends
        obtain rfl : ' ' = b := by simpa using hb
        exact absurd hspace (by decide)
    | escaped => exact hends.elim
  · cases gap with
    | blanks written =>
        cases written with
        | nil =>
            have hclosed := hends a rfl
            simp [isOpenGap, hseparator] at hclosed
        | cons b written =>
            obtain rfl : a = ' ' := Option.some.inj hends
            exact absurd hseparator (by decide)
    | breaks first more => exact Nat.le_refl _
    | escaped => exact hends.elim

theorem Exact.finish_foldl_eq_iff (h : Exact q p) :
    (s.foldl QuotedState.read q).finish = p.reverse ++ s ↔ (p.reverse ++ s).IsChain Apart := by
  induction s generalizing q p with
  | nil =>
      rw [List.foldl_nil, finish, h.text, List.append_nil]
      exact iff_of_true rfl h.apart
  | cons c s ih =>
      by_cases hc : ∀ a ∈ p.head?, Apart a c
      · have hnext := ih (h.read hc)
        rwa [List.reverse_cons, List.append_assoc, List.singleton_append] at hnext
      · apply iff_of_false
        · intro hfinish
          have hlength := congrArg List.length hfinish
          have hbound := length_finish_foldl_le (q.read c) s
          have hlost := h.size_read hc
          have hsize := h.size
          rw [List.foldl_cons, List.length_append, List.length_reverse, List.length_cons] at hlength
          omega
        · intro hchain
          rw [List.isChain_append] at hchain
          apply hc
          intro a ha
          exact hchain.2.2 a (by rwa [List.getLast?_reverse]) c (by simp)

end QuotedState

/-- A quoted string is read as it is when no space stands beside a separator. -/
theorem folded_eq_iff : folded s = s ↔ s.IsChain Apart := by
  exact QuotedState.exact_start.finish_foldl_eq_iff

end Token

end Marginalia.Yaml
