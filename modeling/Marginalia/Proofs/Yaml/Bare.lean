import Marginalia.Proofs.Yaml.OneField

/-!
# Bare strings behind a key

A string that is written without quotes has no white space but separators.
Without them, and when its first character begins no other token, it is the one
plain scalar of the document.  Otherwise no scalar of the document is as long as
the string: a separator ends the scalar, and an indicator begins another token.
-/

namespace Marginalia.Yaml

open CharClass

open Source (isBlank isBreak isGap isOpenGap isSeparator)

namespace Token

variable {out x y : Text} {gap : Gap} {indent line column : Nat}

/-- A plain scalar runs on while there is no white space and no colon. -/
theorem plainFrom_append (hgap : ∀ c ∈ x, isGap c = false) (hcolon : ':' ∉ x)
    (hcolumn : column ≠ 0) :
    plainFrom false indent out .empty line column (x ++ y) =
      plainFrom false indent (x.reverse ++ out) .empty line (column + x.length) y := by
  induction x generalizing out column with
  | nil => rfl
  | cons c x ih =>
      obtain ⟨hblank, hbreak⟩ := Bool.or_eq_false_iff.mp (hgap c (List.mem_cons_self ..))
      have hc : c ≠ ':' := by
        rintro rfl
        exact hcolon (List.mem_cons_self ..)
      rw [List.cons_append, plainFrom]
      simp only [hblank, hbreak, hc, hcolumn, Bool.false_eq_true, if_false, false_and, ne_eq,
        not_true_eq_false]
      have hrest : plainFrom false indent (c :: out) .empty line (column + 1) (x ++ y) =
          plainFrom false indent (x.reverse ++ c :: out) .empty line (column + 1 + x.length) y := by
        apply ih
        · exact fun a ha => hgap a (List.mem_cons_of_mem c ha)
        · exact fun h => hcolon (List.mem_cons_of_mem c h)
        · exact Nat.succ_ne_zero column
      rw [List.reverse_cons, List.append_assoc, List.length_cons, Nat.add_comm x.length,
        ← Nat.add_assoc]
      exact hrest

/-- Below its first line a plain scalar needs indentation. -/
theorem ensures_plainFrom_below (hgap : gap ≠ .empty) (hblank : ∀ c ∈ y, isBlank c = false) :
    Ensures (fun p => p.text = out.reverse ∧ p.stop.rest.length ≤ y.length)
      (plainFrom false (indent + 1) out gap line 0 y) := by
  induction y generalizing gap line with
  | nil => exact Ensures.ok ⟨rfl, Nat.le_refl _⟩
  | cons c y ih =>
      have hshallow : gap ≠ .empty ∧ ¬false = true ∧ 0 < indent + 1 :=
        ⟨hgap, by decide, Nat.succ_pos indent⟩
      rw [plainFrom]
      cases hbreak : isBreak c with
      | true =>
          have hnext : gap.lineBreak c ≠ .empty := by
            cases gap <;> simp [Gap.lineBreak, Gap.empty]
          simp only [hblank c (List.mem_cons_self ..), Bool.false_eq_true, if_false, if_true]
          refine (ih hnext fun a ha => hblank a (List.mem_cons_of_mem c ha)).mono ?_
          rintro p ⟨htext, hstop⟩
          exact ⟨htext, hstop.trans (Nat.le_succ _)⟩
      | false =>
          rw [if_neg (by simp [hblank c (List.mem_cons_self ..)]), if_neg (by decide),
            if_pos hshallow]
          exact Ensures.ok ⟨rfl, Nat.le_refl _⟩

end Token

namespace Scalar

variable {s : Text}

theorem isControl_of_isDelicate_eq_false {c : Char} (hc : isDelicate c = false) :
    isControl c = false := by
  simp only [isDelicate, Bool.or_eq_false_iff] at hc
  exact hc.2

/-- The only white space of a bare string are separators. -/
theorem isGap_of_isDelicate_eq_false {c : Char} (hc : isDelicate c = false) :
    isGap c = isSeparator c := by
  have hspace : c ≠ ' ' := ne_of_class hc (by decide)
  rw [Source.isGap_eq_isOpenGap (isControl_of_isDelicate_eq_false hc), isOpenGap]
  simp [hspace]

theorem isBlank_of_isDelicate_eq_false {c : Char} (hc : isDelicate c = false) :
    isBlank c = false := by
  have hspace : c ≠ ' ' := ne_of_class hc (by decide)
  have htab : c ≠ '\t' := ne_of_class hc (by decide)
  simp [isBlank, hspace, htab]

theorem colon_not_mem (hs : ∀ c ∈ s, isDelicate c = false) : ':' ∉ s := by
  intro h
  exact absurd (hs ':' h) (by decide)

theorem ensures_plain_of_isSeparator (hs : ∀ c ∈ s, isDelicate c = false) {c : Char} (hc : c ∈ s)
    (hseparator : isSeparator c = true) :
    Ensures (fun p => p.text.length < s.length ∧ p.stop.rest.length < s.length)
      (Token.plain false 1 ⟨s, 0, 3⟩) := by
  obtain ⟨d, hfind⟩ : ∃ d, s.find? isSeparator = some d := by
    rw [← Option.isSome_iff_exists, List.find?_isSome]
    exact ⟨c, hc, hseparator⟩
  obtain ⟨hd, x, y, rfl, hx⟩ := List.find?_eq_some_iff_append.mp hfind
  have hfirst : ∀ a ∈ x, isDelicate a = false := fun a ha => hs a (List.mem_append_left _ ha)
  have hgap : ∀ a ∈ x, isGap a = false := by
    intro a ha
    rw [isGap_of_isDelicate_eq_false (hfirst a ha)]
    simpa using hx a ha
  have hdelicate : isDelicate d = false := hs d (by simp)
  have hblank : ∀ a ∈ y, isBlank a = false := by
    intro a ha
    exact isBlank_of_isDelicate_eq_false (hs a (by simp [ha]))
  have hrun : Token.plain false 1 ⟨x ++ d :: y, 0, 3⟩ =
      Token.plainFrom false 1 x.reverse (.breaks [d] []) 1 0 y := by
    rw [Token.plain, Token.plainFrom_append hgap (colon_not_mem hfirst) (Nat.succ_ne_zero 2),
      Token.plainFrom]
    simp only [isBlank_of_isDelicate_eq_false hdelicate, Source.isBreak_of_isSeparator hd,
      Bool.false_eq_true, if_false, if_true, List.append_nil]
    rfl
  rw [hrun]
  refine (Token.ensures_plainFrom_below (by simp [Gap.empty]) hblank).mono ?_
  rintro p ⟨htext, hstop⟩
  rw [htext, List.reverse_reverse, List.length_append, List.length_cons]
  omega

/-- Without a separator a bare string is one plain scalar. -/
theorem plain_of_not_isSeparator (hs : ∀ c ∈ s, isDelicate c = false)
    (hseparator : ∀ c ∈ s, isSeparator c = false) :
    Token.plain false 1 ⟨s, 0, 3⟩ = .ok ⟨s, ⟨[], 0, 3 + s.length⟩, false⟩ := by
  have hgap : ∀ c ∈ s, isGap c = false := by
    intro c hc
    rw [isGap_of_isDelicate_eq_false (hs c hc)]
    exact hseparator c hc
  have hrun : Token.plainFrom false 1 [] .empty 0 3 (s ++ []) =
      Token.plainFrom false 1 (s.reverse ++ []) .empty 0 (3 + s.length) [] :=
    Token.plainFrom_append hgap (colon_not_mem hs) (Nat.succ_ne_zero 2)
  rw [List.append_nil, List.append_nil] at hrun
  rw [Token.plain, hrun, Token.plainFrom, List.reverse_reverse]
  rfl

/-! ## The first token -/

/-- The first character of a bare string is no indicator; a dash or a question
mark may stand there with something behind it. -/
def opensBare : Text → Bool
  | [] => false
  | c :: r => !Scan.isIndicator c || ((c == '-' || c == '?') && !r.isEmpty)

open Scan (atText atValue beforeValue)

theorem dispatch_of_startsPlain {state : Scan} {c : Char} {r : Text} (hflow : state.inFlow = false)
    (hcolumn : state.cursor.column ≠ 0) (hstarts : Scan.startsPlain false c r = true)
    (hdash : c = '-' → Source.atGap r = false) : state.dispatch c r = state.plainScalar := by
  have hcases : Scan.isIndicator c = false ∨
      (c = '-' ∨ c = '?' ∨ c = ':') ∧ Source.atGap r = false := by
    have hways := hstarts
    simp only [Scan.startsPlain, Bool.or_eq_true, Bool.not_eq_true', Bool.or_eq_false_iff,
      Bool.and_eq_true, beq_iff_eq, Bool.not_false, true_and] at hways
    rcases hways with (⟨-, hindicator⟩ | ⟨hc, -⟩) | ⟨hc, hat⟩
    · exact Or.inl hindicator
    · exact Or.inr ⟨Or.inl hc, hdash hc⟩
    · exact Or.inr ⟨Or.inr hc, hat⟩
  unfold Scan.dispatch
  rcases hcases with hindicator | ⟨hmark, hat⟩
  · have hne : ∀ d, Scan.isIndicator d = true → c ≠ d := fun d hd => ne_of_class hindicator hd
    simp only [hflow, hcolumn, hne '[' (by decide), hne '\x7b' (by decide), hne ']' (by decide),
      hne '\x7d' (by decide), hne ',' (by decide), hne '-' (by decide), hne '?' (by decide),
      hne ':' (by decide), hne '*' (by decide), hne '&' (by decide), hne '!' (by decide),
      hne '|' (by decide), hne '>' (by decide), hne '\'' (by decide), hne '"' (by decide),
      hstarts, false_and, if_false, if_true]
  · rcases hmark with rfl | rfl | rfl <;>
      simp only [hflow, hcolumn, hat, hstarts, Char.reduceEq, Bool.false_eq_true, and_false,
        false_and, or_false, if_false, if_true]

/-- A bare string that may stand open is read as a plain scalar. -/
theorem dispatch_of_opensBare {state : Scan} {c : Char} {r : Text} (hflow : state.inFlow = false)
    (hcolumn : state.cursor.column ≠ 0) (hgap : ∀ d ∈ c :: r, isGap d = false)
    (hopens : opensBare (c :: r) = true) (tail : Text) :
    state.dispatch c (r ++ tail) = state.plainScalar := by
  simp only [opensBare, Bool.or_eq_true, Bool.not_eq_true', Bool.and_eq_true, beq_iff_eq] at hopens
  rcases hopens with hindicator | ⟨hmark, hmore⟩
  · refine dispatch_of_startsPlain hflow hcolumn ?_ fun hc => ?_
    · simp [Scan.startsPlain, hgap c (List.mem_cons_self ..), hindicator]
    · exact absurd hc (ne_of_class hindicator (by decide))
  · cases r with
    | nil => simp at hmore
    | cons d r =>
        have hd : isGap d = false := hgap d (by simp)
        have hat : Source.atGap (d :: (r ++ tail)) = false := hd
        obtain ⟨hblank, -⟩ := Bool.or_eq_false_iff.mp hd
        refine dispatch_of_startsPlain hflow hcolumn ?_ fun _ => hat
        simp only [Scan.startsPlain, List.cons_append, hat, List.head?_cons, Option.map_some,
          Option.getD_some, hblank]
        rcases hmark with rfl | rfl <;> simp

/-- A bare string that may stand open begins with no comment. -/
theorem exists_of_opensBare {word : Text} (h : opensBare word = true) :
    ∃ c r, word = c :: r ∧ c ≠ '#' := by
  cases word with
  | nil => cases h
  | cons c r =>
      refine ⟨c, r, rfl, ?_⟩
      rintro rfl
      simp [opensBare, Scan.isIndicator] at h

theorem settled_beforeValue {s : Scan} {n : Nat} (htokens : s.tokens = beforeValue)
    (hcandidate : s.candidate = none) (houter : s.outer = []) : Scan.Settled beforeValue n s := by
  constructor
  · exact ⟨[], by simp [htokens], by simp⟩
  · simp [hcandidate, houter]

/-- The first character of any other bare string begins another token, which is
shorter. -/
theorem bounded_dispatch_of_not_opensBare {c : Char} {r : Text} (hc : isDelicate c = false)
    (hopens : opensBare (c :: r) = false) :
    Ensures (Scan.Bounded beforeValue r.length) ((atText (c :: r)).dispatch c r) := by
  simp only [opensBare, Bool.or_eq_false_iff, Bool.not_eq_false'] at hopens
  obtain ⟨hindicator, hmark⟩ := hopens
  cases hdash : c == '-' || c == '?' with
  | true =>
      obtain rfl : r = [] := by simpa [hdash] using hmark
      rw [Bool.or_eq_true, beq_iff_eq, beq_iff_eq] at hdash
      rcases hdash with rfl | rfl
      · exact Ensures.error (.misplacedIndicator '-')
      · exact Ensures.error (.misplacedIndicator '?')
  | false =>
      have hcolon : c ≠ ':' := ne_of_class hc (by decide)
      have hstarts : Scan.startsPlain false c r = false := by
        rw [Bool.or_eq_false_iff, beq_eq_false_iff_ne, beq_eq_false_iff_ne] at hdash
        simp [Scan.startsPlain, hindicator, hdash, hcolon]
      have hsettled : Scan.Settled beforeValue r.length (atText (c :: r)) :=
        settled_beforeValue rfl rfl rfl
      apply Scan.bounded_dispatch hsettled rfl (Nat.le_refl _)
      intro hplain
      have hflow : (atText (c :: r)).inFlow = false := rfl
      rw [hflow, hstarts] at hplain
      exact absurd hplain (by decide)

/-- A bare string with a separator, or one that may not stand open, gives no
scalar as long as itself. -/
theorem ensures_run_of_not_readsOpen {c : Char} {r : Text}
    (hs : ∀ d ∈ c :: r, isDelicate d = false)
    (h : (∃ d ∈ c :: r, isSeparator d = true) ∨ opensBare (c :: r) = false) (fuel : Nat) :
    Ensures (Scan.Continues beforeValue r.length)
      (Scan.run (fuel + 1) (atValue (c :: r))) := by
  have hfirst := hs c (List.mem_cons_self ..)
  have hstart : Scan.Settled beforeValue r.length (atValue (c :: r)) :=
    settled_beforeValue rfl rfl rfl
  apply Scan.ensures_run_succ fun s h => Scan.ensures_run h fuel
  cases hseparator : isSeparator c with
  | true =>
      -- the line ends before the string begins
      refine (Scan.settled_approach hstart).mono ?_
      rintro s' ⟨h', hcursor⟩
      have hskip :
          (Scan.skipGap false false false 0 2 (' ' :: c :: r)).1.rest.length ≤ r.length := by
        have hspace : Scan.skipGap false false false 0 2 (' ' :: c :: r) =
            Scan.skipGap false false false 0 3 (c :: r) := rfl
        rw [hspace, Scan.skipGap, if_pos (Source.isBreak_of_isSeparator hseparator)]
        exact Scan.length_skipGap_le ..
      have hbounded : Scan.Bounded beforeValue r.length s' := ⟨h', by rw [hcursor]; exact hskip⟩
      exact ⟨h', fun d t hrest => Scan.bounded_dispatch_of_bounded hbounded hrest⟩
  | false =>
      have hgap : isGap c = false := by rw [isGap_of_isDelicate_eq_false hfirst, hseparator]
      have hcomment : c ≠ '#' := ne_of_class hfirst (by decide)
      have hsettled : Scan.Settled beforeValue r.length (atText (c :: r)) :=
        settled_beforeValue rfl rfl rfl
      rw [Scan.approach_atValue r hgap hcomment]
      apply Ensures.ok
      refine ⟨hsettled, ?_⟩
      intro d t hrest
      obtain ⟨rfl, rfl⟩ := List.cons.inj hrest
      rcases h with ⟨d, hd, hseparator⟩ | hopens
      · apply Scan.bounded_dispatch hsettled rfl (Nat.le_refl _)
        intro _
        refine (ensures_plain_of_isSeparator hs hd hseparator).mono ?_
        rintro p ⟨htext, hstop⟩
        rw [List.length_cons] at htext hstop
        constructor <;> omega
      · exact bounded_dispatch_of_not_opensBare hfirst hopens

/-- A bare string that may stand open and has no separator is the one scalar of
the document. -/
theorem run_of_readsOpen {c : Char} {r : Text} (hs : ∀ d ∈ c :: r, isDelicate d = false)
    (hseparator : ∀ d ∈ c :: r, isSeparator d = false) (hopens : opensBare (c :: r) = true)
    (fuel : Nat) :
    Scan.run (fuel + 1) (atValue (c :: r)) =
      Scan.run fuel (Scan.atEnd true (c :: r) 0 (3 + (c :: r).length)) := by
  have hgap : ∀ d ∈ c :: r, isGap d = false := by
    intro d hd
    rw [isGap_of_isDelicate_eq_false (hs d hd)]
    exact hseparator d hd
  have hfirst := hs c (List.mem_cons_self ..)
  have hcomment : c ≠ '#' := ne_of_class hfirst (by decide)
  have happroach := Scan.approach_atValue r (hgap c (List.mem_cons_self ..)) hcomment
  have hdispatch : (atText (c :: r)).dispatch c r =
      .ok (Scan.atEnd true (c :: r) 0 (3 + (c :: r).length)) := by
    have hcolumn : (atText (c :: r)).cursor.column ≠ 0 := Nat.succ_ne_zero 2
    have hplainScalar := dispatch_of_opensBare rfl hcolumn hgap hopens []
    rw [List.append_nil] at hplainScalar
    rw [hplainScalar]
    have hplain := plain_of_not_isSeparator hs hseparator
    have hscalar : (atText (c :: r)).plainScalar = (do
        let p ← Token.plain false 1 ⟨c :: r, 0, 3⟩
        return { (atText (c :: r)).push (.scalar true p.text) with
          cursor := p.stop, keyAllowed := p.crossedLine }) := rfl
    rw [hscalar, hplain]
    rfl
  rw [Scan.run_eq_dispatch happroach rfl, hdispatch]
  rfl

end Scalar

end Marginalia.Yaml
