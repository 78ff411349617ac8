import Marginalia.Proofs.Yaml.Taken

/-!
# The text around a value

Line endings become line feeds before a text is read, and a text on one line, or
through a colon, is read by itself.  Behind a value there may be a comment, and
below it the other lines: over the comment the gap leads to the same place as
without it, `samePlace_note`.
-/

namespace Marginalia.Yaml

open Source (atGap isBlank isBreak)

namespace Source

/-! ## Texts as they are read -/

theorem ofText_eq_ok_iff {t u : Text} :
    ofText t = .ok u ↔ (∀ c ∈ t, isAllowed c = true) ∧ u = withLineFeeds t := by
  unfold ofText
  cases hfind : t.find? fun c => !isAllowed c with
  | some c =>
      have hc := List.find?_some hfind
      have hmem := List.mem_of_find?_eq_some hfind
      constructor
      · intro h
        simp at h
      · rintro ⟨hall, -⟩
        simp [hall c hmem] at hc
  | none =>
      have hall : ∀ c ∈ t, isAllowed c = true := by simpa using hfind
      simp only [Except.ok.injEq]
      constructor
      · rintro rfl
        exact ⟨hall, rfl⟩
      · rintro ⟨-, rfl⟩
        rfl

/-- A character that is read as a line break or as a part of one. -/
def endsLine (c : Char) : Bool :=
  isBreak c || c == '\r' || c == '\x85'

theorem withLineFeeds_cons {c : Char} (hreturn : c ≠ '\r') (hnext : c ≠ '\x85') (t : Text) :
    withLineFeeds (c :: t) = c :: withLineFeeds t := by
  rw [withLineFeeds]
  · intro r hr
    exact absurd hr hreturn
  · exact hreturn
  · exact hnext

/-- Only carriage returns and next lines are not read as they are. -/
theorem withLineFeeds_append_of_ne {t : Text} (ht : ∀ c ∈ t, c ≠ '\r' ∧ c ≠ '\x85') (x : Text) :
    withLineFeeds (t ++ x) = t ++ withLineFeeds x := by
  induction t with
  | nil => rfl
  | cons c t ih =>
      obtain ⟨hreturn, hnext⟩ := ht c (List.mem_cons_self ..)
      rw [List.cons_append, withLineFeeds_cons hreturn hnext,
        ih fun d hd => ht d (List.mem_cons_of_mem c hd), List.cons_append]

theorem withLineFeeds_append_of_endsLine {t : Text} (ht : ∀ c ∈ t, endsLine c = false) (x : Text) :
    withLineFeeds (t ++ x) = t ++ withLineFeeds x := by
  refine withLineFeeds_append_of_ne (fun c hc => ?_) x
  have hends := ht c hc
  simp only [endsLine, Bool.or_eq_false_iff, beq_eq_false_iff_ne] at hends
  exact ⟨hends.1.2, hends.2⟩

/-- A text that ends in the colon of a key is read by itself. -/
theorem withLineFeeds_append_colon (t x : Text) :
    withLineFeeds (t ++ ':' :: x) = withLineFeeds (t ++ [':']) ++ withLineFeeds x := by
  have hcolon : ∀ x, withLineFeeds (':' :: x) = ':' :: withLineFeeds x :=
    withLineFeeds_cons (by decide) (by decide)
  induction t using withLineFeeds.induct with
  | case1 t ih => exact congrArg ('\n' :: ·) ih
  | case2 t hne ih =>
      -- the carriage return stands alone, also before the colon
      have hreturn : ∀ y, withLineFeeds ('\r' :: (t ++ ':' :: y)) =
          '\n' :: withLineFeeds (t ++ ':' :: y) := by
        intro y
        rw [withLineFeeds]
        intro r hr
        cases t with
        | nil => cases (List.cons.inj hr).1
        | cons c t =>
            obtain ⟨rfl, -⟩ := List.cons.inj hr
            exact hne t rfl
      rw [List.cons_append, List.cons_append, hreturn, hreturn, ih]
      rfl
  | case3 t ih => exact congrArg ('\n' :: ·) ih
  | case4 c t hpair hreturn hnext ih =>
      rw [List.cons_append, List.cons_append, withLineFeeds_cons hreturn hnext,
        withLineFeeds_cons hreturn hnext, ih, List.cons_append]
  | case5 => exact hcolon x

end Source

namespace Scan

open Source (endsLine)

/-- Nothing, or a comment behind blanks. -/
def IsNote (t : Text) : Prop :=
  t = [] ∨ ∃ blanks r, t = blanks ++ '#' :: r ∧ blanks ≠ [] ∧ (∀ c ∈ blanks, isBlank c = true) ∧
    ∀ c ∈ r, endsLine c = false

theorem endsLine_of_isBlank {c : Char} (hc : isBlank c = true) : endsLine c = false := by
  rw [isBlank, Bool.or_eq_true, beq_iff_eq, beq_iff_eq] at hc
  rcases hc with rfl | rfl <;> decide

theorem endsLine_of_isNote {note : Text} (h : IsNote note) : ∀ c ∈ note, endsLine c = false := by
  rcases h with rfl | ⟨blanks, r, rfl, -, hblanks, hr⟩
  · simp
  · intro c hc
    simp only [List.mem_append, List.mem_cons] at hc
    rcases hc with hc | rfl | hc
    · exact endsLine_of_isBlank (hblanks c hc)
    · decide
    · exact hr c hc

/-- The text below a line, with the ending of the line. -/
def IsBelow (t : Text) : Prop :=
  t = [] ∨ ∃ r, t = '\n' :: r

theorem atGap_note_append {note below : Text} (hnote : IsNote note) (hbelow : IsBelow below) :
    atGap (note ++ below) = true := by
  rcases hnote with rfl | ⟨blanks, r, rfl, hne, hblanks, -⟩
  · rcases hbelow with rfl | ⟨r, rfl⟩ <;> rfl
  · cases blanks with
    | nil => exact absurd rfl hne
    | cons c blanks =>
        have hc := hblanks c (List.mem_cons_self ..)
        simp [atGap, Source.isGap, hc]

/-- The place to which the text below the line leads. -/
def below (s : Scan) (t : Text) : Cursor × Bool :=
  skipGap false false false s.cursor.line s.cursor.column t

/-- From anywhere on a line the gap leads to the same place below it. -/
theorem samePlace_below {below : Text} (hbelow : IsBelow below) (comment comment' : Bool)
    (line column column' : Nat) :
    SamePlace (skipGap false false comment line column below)
      (skipGap false false comment' line column' below) := by
  rcases hbelow with rfl | ⟨r, rfl⟩
  · exact Or.inr ⟨rfl, rfl⟩
  · exact Or.inl rfl

theorem skipGap_comment {r : Text} (hr : ∀ c ∈ r, endsLine c = false) (line column : Nat)
    (x : Text) :
    skipGap false false true line column (r ++ x) =
      skipGap false false true line (column + r.length) x := by
  induction r generalizing column with
  | nil => rfl
  | cons c r ih =>
      have hc := hr c (List.mem_cons_self ..)
      simp only [endsLine, Bool.or_eq_false_iff] at hc
      have hlength : column + (c :: r).length = column + 1 + r.length := by
        rw [List.length_cons]
        omega
      rw [List.cons_append, skipGap, hc.1.1, hlength,
        ← ih fun d hd => hr d (List.mem_cons_of_mem c hd)]
      rfl

/-- The gap behind a value leads over a comment to the text below. -/
theorem samePlace_note {note below : Text} (hnote : IsNote note) (hbelow : IsBelow below)
    (line column column' : Nat) :
    SamePlace (skipGap false false false line column (note ++ below))
      (skipGap false false false line column' below) := by
  rcases hnote with rfl | ⟨blanks, r, rfl, -, hblanks, hr⟩
  · exact samePlace_below hbelow _ _ _ _ _
  · have hsign : skipGap false false false line (column + blanks.length) ('#' :: (r ++ below)) =
        skipGap false false true line (column + blanks.length + 1) (r ++ below) := by
      rw [skipGap]
      simp [isBreak]
    rw [List.append_assoc, skipGap_blanks hblanks, List.cons_append, hsign, skipGap_comment hr]
    exact samePlace_below hbelow _ _ _ _ _

/-! ## Behind a key -/

/-- A text behind the colon of a key is read from the state behind the colon. -/
theorem finish_append_of_through {n : Nat} {s s' : Scan} (h : through? n s = some s') {x : Text}
    (hx : atGap x = true) : (s.append x).finish = (s'.append x).finish := by
  obtain ⟨k, -, hrun⟩ := run_append h
  let fuel := (s.append x).cursor.rest.length + (s'.append x).cursor.rest.length + 1
  have hbefore : run (fuel + k) (s.append x) = (s.append x).finish := run_eq_finish (by omega)
  have hbehind : run fuel (s'.append x) = (s'.append x).finish := run_eq_finish (by omega)
  rw [← hbefore, hrun x hx, hbehind]

end Scan

end Marginalia.Yaml
