import Marginalia.Proofs.Yaml.Onward
import Marginalia.Proofs.Yaml.ReadBack

/-!
# The parts of an entry

What the reader makes of a dash, of a scalar in the place of a value, of a key
with its colon and of an empty flow collection, each as an equation between the
ends of two states.

A scalar is a bare word or a string between double quotes, and so is a key.  A
bare key may have blanks, colons and number signs inside as long as the reader
takes it whole.
-/

namespace Marginalia.Yaml

open CharClass

namespace Source

/-- A character that may stand within a line of a document. -/
def isInline (c : Char) : Bool :=
  isAllowed c && !(c == '\n' || c == '\r' || c == '\x85')

theorem isAllowed_of_isInline {c : Char} (hc : isInline c = true) : isAllowed c = true := by
  rw [isInline, Bool.and_eq_true] at hc
  exact hc.1

theorem isInline_of_isControl {c : Char} (hc : isControl c = false)
    (hn : isNoncharacter c = false) : isInline c = true := by
  have hends : (c == '\n' || c == '\r' || c == '\x85') = false := by
    simp only [Bool.or_eq_false_iff, beq_eq_false_iff_ne, and_assoc]
    refine ⟨?_, ?_, ?_⟩ <;>
    · rintro rfl
      exact absurd hc (by decide)
  rw [isInline, isAllowed_eq hc, hn, hends]
  rfl

end Source

open Source (atGap isBlank isBreak isGap isInline)

namespace Scan

/-- Below the line the next content is no deeper than the column `most`. -/
structure Follows (most : Nat) (tail : Text) : Prop where
  isBelow : IsBelow tail
  shallow (line column : Nat) : (skipGap false false false line column tail).1.rest = [] ∨
    line < (skipGap false false false line column tail).1.line ∧
      (skipGap false false false line column tail).1.column ≤ most
  head?_ne_tab (line column : Nat) :
    (skipGap false false false line column tail).1.rest.head? ≠ some '\t'

/-- Behind a value comes a gap, and below the line no content deeper than the
column `most`. -/
structure Trails (most : Nat) (tail : Text) : Prop where
  atGap : atGap tail = true
  shallow (line column : Nat) : (skipGap false false false line column tail).1.rest = [] ∨
    line < (skipGap false false false line column tail).1.line ∧
      (skipGap false false false line column tail).1.column ≤ most
  head?_ne_tab (line column : Nat) :
    (skipGap false false false line column tail).1.rest.head? ≠ some '\t'

theorem Follows.mono {most most' : Nat} {tail : Text} (h : Follows most tail)
    (hle : most ≤ most') : Follows most' tail where
  isBelow := h.isBelow
  shallow line column := (h.shallow line column).imp_right fun h => ⟨h.1, Nat.le_trans h.2 hle⟩
  head?_ne_tab := h.head?_ne_tab

theorem Follows.atGap {most : Nat} {tail : Text} (h : Follows most tail) : atGap tail = true := by
  rcases h.isBelow with rfl | ⟨r, rfl⟩ <;> rfl

theorem Follows.trails_note {most : Nat} {note tail : Text} (h : Follows most tail)
    (hnote : IsNote note) : Trails most (note ++ tail) where
  atGap := atGap_note_append hnote h.isBelow
  shallow line column := by
    rcases samePlace_note hnote h.isBelow line column column with hsame | ⟨hnil, -⟩
    · rw [hsame]
      exact h.shallow line column
    · exact Or.inl hnil
  head?_ne_tab line column := by
    rcases samePlace_note hnote h.isBelow line column column with hsame | ⟨hnil, -⟩
    · rw [hsame]
      exact h.head?_ne_tab line column
    · rw [hnil]
      simp

theorem follows_indented {c : Char} (hc : isGap c = false) (hsign : c ≠ '#') {width : Nat}
    (hmark : width = 0 → c ≠ '\uFEFF') (r : Text) :
    Follows width ('\n' :: (List.replicate width ' ' ++ c :: r)) where
  isBelow := Or.inr ⟨_, rfl⟩
  shallow line column := by
    rw [skipGap_indented hc hsign false hmark]
    exact Or.inr ⟨Nat.lt_succ_self line, Nat.le_refl width⟩
  head?_ne_tab line column := by
    rw [skipGap_indented hc hsign false hmark]
    simp only [List.head?_cons, ne_eq, Option.some.injEq]
    rintro rfl
    cases hc

theorem follows_lineFeed {most : Nat} {below : Text}
    (hshallow : (skipGap false true false 0 0 below).1.rest = [] ∨
      (skipGap false true false 0 0 below).1.column ≤ most)
    (htab : (skipGap false true false 0 0 below).1.rest.head? ≠ some '\t') :
    Follows most ('\n' :: below) := by
  have hdown : ∀ line column, skipGap false false false line column ('\n' :: below) =
      ((skipGap false true false 0 0 below).1.down (line + 1),
        (skipGap false true false 0 0 below).2) := by
    intro line column
    rw [← skipGap_down, Nat.zero_add]
    rfl
  refine ⟨Or.inr ⟨below, rfl⟩, fun line column => ?_, fun line column => ?_⟩
  · rw [hdown]
    refine hshallow.imp_right fun h => ⟨?_, h⟩
    dsimp only [Cursor.down]
    omega
  · rw [hdown]
    exact htab

theorem follows_nil (most : Nat) : Follows most [] :=
  ⟨Or.inl rfl, fun _ _ => Or.inl rfl, fun _ _ => by simp [skipGap]⟩

variable {line column i : Nat} {is : List Nat} {allowed : Bool} {tokens : List Token}

theorem finish_space (r : Text) (indents : List Nat) :
    (inBlock ⟨' ' :: r, line, column⟩ indents allowed tokens).finish =
      (inBlock ⟨r, line, column + 1⟩ indents allowed tokens).finish :=
  finish_inBlock_of_skipGap (skipGap_space false allowed line column r)

/-! ## Dashes -/

section Dash

variable {width : Nat} {r : Text}

theorem dispatch_dash (s : Scan) (r : Text) : s.dispatch '-' (' ' :: r) = s.dash := by
  have hmarker : Source.atMarker ('-' :: ' ' :: r) = false := rfl
  have hgap : atGap (' ' :: r) = true := rfl
  unfold dispatch
  simp [hmarker, hgap]

/-- A dash at the column of the open sequence is the start of an item. -/
theorem dash_inBlock : (inBlock ⟨'-' :: r, line, width⟩ (width :: is) true tokens).dash =
    .ok (inBlock ⟨r, line, width + 1⟩ (width :: is) true (.blockEntry :: tokens)) := by
  simp [dash, inBlock, roll, inFlow, indent?, forgetKey, take, push, Cursor.skip, bind, Except.bind,
    pure, Except.pure]

theorem dash_inBlock_of_lt (h : i < width) :
    (inBlock ⟨'-' :: r, line, width⟩ (i :: is) true tokens).dash =
      .ok (inBlock ⟨r, line, width + 1⟩ (width :: i :: is) true
        (.blockEntry :: .blockSequenceStart :: tokens)) := by
  simp [dash, inBlock, roll, inFlow, indent?, pushAt, forgetKey, take, push, Cursor.skip, bind,
    Except.bind, pure, Except.pure, h]

theorem finish_of_dash {s : Scan} {indents : List Nat}
    (hindents : closeIndents width indents tokens = (indents, tokens))
    (hdash : (inBlock ⟨'-' :: ' ' :: r, line + 1, width⟩ indents true tokens).dash = .ok s) :
    (inBlock ⟨'\n' :: (List.replicate width ' ' ++ '-' :: ' ' :: r), line, column⟩ indents allowed
      tokens).finish = s.finish := by
  have happroach : (inBlock ⟨'\n' :: (List.replicate width ' ' ++ '-' :: ' ' :: r), line, column⟩
      indents allowed tokens).approach =
        .ok (inBlock ⟨'-' :: ' ' :: r, line + 1, width⟩ indents true tokens) := by
    rw [approach_inBlock (skipGap_indented (by decide) (by decide) false fun _ => by decide)]
    dsimp only
    rw [hindents]
  exact finish_of_dispatch happroach rfl ((dispatch_dash _ _).trans hdash)

theorem finish_dash : (inBlock ⟨'\n' :: (List.replicate width ' ' ++ '-' :: ' ' :: r), line, column⟩
      (width :: is) allowed tokens).finish =
    (inBlock ⟨r, line + 1, width + 2⟩ (width :: is) true (.blockEntry :: tokens)).finish := by
  rw [finish_of_dash (closeIndents_of_le (Nat.le_refl width) tokens) dash_inBlock, finish_space]

theorem finish_dash_of_lt (h : i < width) :
    (inBlock ⟨'\n' :: (List.replicate width ' ' ++ '-' :: ' ' :: r), line, column⟩ (i :: is) allowed
        tokens).finish =
      (inBlock ⟨'\n' :: (List.replicate width ' ' ++ '-' :: ' ' :: r), line, column⟩
        (width :: i :: is) allowed (.blockSequenceStart :: tokens)).finish := by
  rw [finish_of_dash (closeIndents_of_le (Nat.le_of_lt h) tokens) (dash_inBlock_of_lt h),
    finish_of_dash (closeIndents_of_le (Nat.le_refl width) _) dash_inBlock]

end Dash

/-! ## Places at which a key may have begun -/

/-- The state with a place at which a key may have begun. -/
def withCandidate (s : Scan) (k : KeyStart) : Scan :=
  { s with candidate := some k }

/-- The state behind a scalar, which may be a key when one was allowed there. -/
def marked (s : Scan) (allowed : Bool) (k : KeyStart) : Scan :=
  if allowed then s.withCandidate k else s

/-- A scalar that is no key by the end of its line is none. -/
theorem finish_marked {cursor : Cursor} {indents : List Nat} {allowed' : Bool} {k : KeyStart}
    (hrequired : k.required = false)
    (hover : k.line < (skipGap false allowed' false cursor.line cursor.column cursor.rest).1.line ∨
      (skipGap false allowed' false cursor.line cursor.column cursor.rest).1.rest = []) :
    ((inBlock cursor indents allowed' tokens).marked allowed k).finish =
      (inBlock cursor indents allowed' tokens).finish := by
  cases allowed with
  | false => rfl
  | true => exact finish_of_candidate hrequired hover

theorem approach_at {c : Char} {r : Text} (hc : isGap c = false) (hsign : c ≠ '#')
    (hcolumn : column ≠ 0) (hi : i ≤ column) :
    (inBlock ⟨c :: r, line, column⟩ (i :: is) allowed tokens).approach =
      .ok (inBlock ⟨c :: r, line, column⟩ (i :: is) allowed tokens) := by
  rw [approach_inBlock (skipGap_of_isGap_eq_false hc hsign hcolumn)]
  dsimp only
  rw [closeIndents_of_le hi]

/-! ## Scalars -/

/-- The reader takes the text `written` in the place of a value for the one
token `t`. -/
def TakesScalar (written : Text) (t : Token) : Prop :=
  ∀ (line column i : Nat) (is : List Nat) (allowed : Bool) (tail : Text) (before : List Token),
    i < column → Trails i tail → ∃ line' column',
      (inBlock ⟨written ++ tail, line, column⟩ (i :: is) allowed before).finish =
        (inBlock ⟨tail, line', column'⟩ (i :: is) false (t :: before)).finish

theorem plainScalar_inBlock {x : Text} {p : Token.PlainScalar}
    (hplain : Token.plainFrom false (i + 1) [] .empty line column x = .ok p) :
    (inBlock ⟨x, line, column⟩ (i :: is) allowed tokens).plainScalar =
      .ok ((inBlock p.stop (i :: is) p.crossedLine (.scalar true p.text :: tokens)).marked allowed
        ⟨tokens.length, line, column, i == column⟩) := by
  cases allowed <;>
    simp [plainScalar, markKey, inBlock, marked, withCandidate, inFlow, indent?, forgetKey, push,
      bind, Except.bind, pure, Except.pure, Token.plain, hplain]

theorem takesScalar_word {word : Text} (hopens : Scalar.opensBare word = true)
    (hword : ∀ c ∈ word, isGap c = false) (hcolon : ':' ∉ word) :
    TakesScalar word (.scalar true word) := by
  intro line column i is allowed tail before hi htail
  refine ⟨line, column + word.length, ?_⟩
  have hcolumn : column ≠ 0 := Nat.ne_zero_of_lt hi
  have hshallow := htail.shallow line (column + word.length)
  obtain ⟨stop, crossed, hstop, hresume⟩ := Token.exists_plainFrom_behind (word.reverse ++ [])
    .empty rfl (Or.inr htail.atGap) (hshallow.imp_right And.right) (htail.head?_ne_tab _ _)
  have hplain : Token.plainFrom false (i + 1) [] .empty line column (word ++ tail) =
      .ok ⟨word, stop, crossed⟩ := by
    rw [Token.plainFrom_append hword hcolon hcolumn, hstop, List.append_nil, List.reverse_reverse]
  have hover : line < (skipGap false crossed false stop.line stop.column stop.rest).1.line ∨
      (skipGap false crossed false stop.line stop.column stop.rest).1.rest = [] := by
    rw [hresume]
    exact (hshallow.imp_right And.left).symm
  have hrequired : (i == column) = false := by
    rw [beq_eq_false_iff_ne]
    exact Nat.ne_of_lt hi
  obtain ⟨c, r, rfl, hsign⟩ := Scalar.exists_of_opensBare hopens
  have happroach : (inBlock ⟨c :: r ++ tail, line, column⟩ (i :: is) allowed before).approach = _ :=
    approach_at (hword c (List.mem_cons_self ..)) hsign hcolumn (Nat.le_of_lt hi)
  have hdispatch : (inBlock ⟨c :: r ++ tail, line, column⟩ (i :: is) allowed before).dispatch c
      (r ++ tail) = _ :=
    (Scalar.dispatch_of_opensBare rfl hcolumn hword hopens tail).trans (plainScalar_inBlock hplain)
  rw [finish_of_dispatch happroach rfl hdispatch, finish_marked hrequired hover]
  exact finish_inBlock_of_skipGap hresume

section Quoted

variable {s tail : Text}

open Token (inside)

theorem dispatch_quote (state : Scan) (r : Text) :
    state.dispatch '"' r = state.quotedScalar true := by
  have hmarker : Source.atMarker ('"' :: r) = false :=
    Token.atMarker_cons_of_ne (by decide) (by decide)
  unfold dispatch
  simp [hmarker]

/-- A string between double quotes may be a key where one may begin. -/
theorem finish_of_quoted {stop : Cursor} (hcolumn : column ≠ 0) (hi : i ≤ column)
    (hread : Token.quotedFrom true .start line (column + 1) (inside true s ++ tail) =
      .ok (s, stop)) :
    (inBlock ⟨Scalar.doubleQuoted s ++ tail, line, column⟩ (i :: is) allowed tokens).finish =
      ((inBlock stop (i :: is) false (.scalar false s :: tokens)).marked allowed
        ⟨tokens.length, line, column, i == column⟩).finish := by
  have hquoted : Token.quoted true ⟨Scalar.doubleQuoted s ++ tail, line, column⟩ = .ok (s, stop) :=
    hread
  have hscalar : (inBlock ⟨Scalar.doubleQuoted s ++ tail, line, column⟩ (i :: is) allowed
      tokens).quotedScalar true =
        .ok ((inBlock stop (i :: is) false (.scalar false s :: tokens)).marked allowed
          ⟨tokens.length, line, column, i == column⟩) := by
    cases allowed <;>
      simp [quotedScalar, markKey, inBlock, marked, withCandidate, inFlow, indent?, forgetKey, push,
        bind, Except.bind, pure, Except.pure, hquoted]
  exact finish_of_dispatch (approach_at (by decide) (by decide) hcolumn hi) rfl
    ((dispatch_quote _ _).trans hscalar)

theorem takesScalar_doubleQuoted (hs : Scalar.ReadsQuoted s) :
    TakesScalar (Scalar.doubleQuoted s) (.scalar false s) := by
  intro line column i is allowed tail before hi htail
  have hcolumn : column ≠ 0 := Nat.ne_zero_of_lt hi
  obtain ⟨line', column', hle, hread⟩ := Token.exists_quotedFrom_inside_eq_ok (q := .start) rfl
    (fun c _ => Or.inl rfl) htail.atGap line (column + 1) (by simp) hs.unmarked
  have hfold : (s.foldl Token.QuotedState.read .start).finish = s :=
    Token.folded_eq_iff.mpr hs.apart
  rw [hfold] at hread
  have hrequired : (i == column) = false := by
    rw [beq_eq_false_iff_ne]
    exact Nat.ne_of_lt hi
  have hover : line < (skipGap false false false line' column' tail).1.line ∨
      (skipGap false false false line' column' tail).1.rest = [] :=
    (htail.shallow line' column').symm.imp_left fun h => Nat.lt_of_le_of_lt hle h.1
  refine ⟨line', column', ?_⟩
  rw [finish_of_quoted hcolumn (Nat.le_of_lt hi) hread, finish_marked hrequired hover]

end Quoted

/-! ## Keys -/

/-- The reader takes the text `written` before a colon and a space for a key of
the one token `t`. -/
def TakesKey (written : Text) (t : Token) : Prop :=
  ∀ (line column i : Nat) (is : List Nat) (r : Text) (before : List Token), column ≠ 0 →
    i ≤ column → ∃ column', column < column' ∧
      (inBlock ⟨written ++ ':' :: ' ' :: r, line, column⟩ (i :: is) true before).finish =
        (inBlock ⟨r, line, column'⟩ (if i < column then column :: i :: is else i :: is) false
          (.value :: t :: .key ::
            if i < column then .blockMappingStart :: before else before)).finish

section Key

variable {key r : Text}

theorem approach_withCandidate {c : Char} {k : KeyStart} (hc : isGap c = false) (hsign : c ≠ '#')
    (hcolumn : column ≠ 0) (hi : i ≤ column) (hline : k.line = line)
    (hlength : column ≤ k.column + 1024) :
    ((inBlock ⟨c :: r, line, column⟩ (i :: is) allowed tokens).withCandidate k).approach =
      .ok ((inBlock ⟨c :: r, line, column⟩ (i :: is) allowed tokens).withCandidate k) := by
  have hgap : skipGap false allowed false line column (c :: r) =
      (⟨c :: r, line, column⟩, allowed) :=
    skipGap_of_isGap_eq_false hc hsign hcolumn
  have hskipped : ((inBlock ⟨c :: r, line, column⟩ (i :: is) allowed tokens).withCandidate
      k).next = (⟨c :: r, line, column⟩, allowed) := hgap
  have hrefresh : refresh ⟨c :: r, line, column⟩ (some k) = .ok (some k) := by
    rw [refresh, if_neg]
    rw [hline]
    dsimp only
    omega
  have hclose : closeIndents column (i :: is) tokens = (i :: is, tokens) :=
    closeIndents_of_le hi tokens
  rw [approach_eq, skipped, hskipped]
  simp only [dropStale, withCandidate, inBlock, hrefresh, bind, Except.bind, List.mapM_nil, pure,
    Except.pure, unroll, inFlow, List.isEmpty_nil, Bool.not_true, Bool.false_eq_true, if_false,
    hclose]

theorem colon_withCandidate {t : Token} {required : Bool} {column' : Nat} :
    ((inBlock ⟨':' :: r, line, column'⟩ (i :: is) allowed (t :: tokens)).withCandidate
        ⟨tokens.length, line, column, required⟩).colon =
      .ok (inBlock ⟨r, line, column' + 1⟩ (if i < column then column :: i :: is else i :: is) false
        (.value :: t :: .key :: if i < column then .blockMappingStart :: tokens else tokens)) := by
  by_cases h : i < column
  · simp [colon, withCandidate, inBlock, pushAt, roll, inFlow, indent?, take, push, Cursor.skip,
      pure, Except.pure, h]
    have htwo : tokens.length + 1 + 1 - tokens.length = 2 := by omega
    rw [htwo]
    rfl
  · simp [colon, withCandidate, inBlock, pushAt, roll, inFlow, indent?, take, push, Cursor.skip,
      pure, Except.pure, h]

/-- A scalar is a key when its colon comes soon enough. -/
theorem finish_colon {t : Token} {required : Bool} {width : Nat} (hcolumn : column ≠ 0)
    (hi : i ≤ column) (hwidth : width ≤ 1024) :
    ((inBlock ⟨':' :: ' ' :: r, line, column + width⟩ (i :: is) false (t :: tokens)).withCandidate
        ⟨tokens.length, line, column, required⟩).finish =
      (inBlock ⟨r, line, column + width + 2⟩ (if i < column then column :: i :: is else i :: is)
        false (.value :: t :: .key ::
          if i < column then .blockMappingStart :: tokens else tokens)).finish := by
  have hbehind : column + width ≠ 0 := by omega
  have happroach : ((inBlock ⟨':' :: ' ' :: r, line, column + width⟩ (i :: is) false
      (t :: tokens)).withCandidate ⟨tokens.length, line, column, required⟩).approach = _ :=
    approach_withCandidate (by decide) (by decide) hbehind (by omega) rfl
      (Nat.add_le_add_left hwidth column)
  have hdispatch := (dispatch_colon ((inBlock ⟨':' :: ' ' :: r, line, column + width⟩ (i :: is)
    false (t :: tokens)).withCandidate ⟨tokens.length, line, column, required⟩)
      (show atGap (' ' :: r) = true from rfl)).trans colon_withCandidate
  rw [finish_of_dispatch happroach rfl hdispatch, finish_space]

end Key

end Scan

/-! ### Bare keys -/

namespace Token
theorem le_line_of_plainFrom {flow : Bool} {indent line column : Nat} {out t : Text} {gap : Gap}
    {p : PlainScalar} (h : plainFrom flow indent out gap line column t = .ok p) :
    line ≤ p.stop.line := by
  induction t generalizing out gap line column with
  | nil =>
      cases h
      exact Nat.le_refl line
  | cons c r ih =>
      rw [plainFrom] at h
      split_ifs at h
      · exact ih h
      · exact Nat.le_of_succ_le (ih h)
      all_goals first
        | exact ih h
        | (cases h; exact Nat.le_refl line)

/-- Whether a plain scalar of one line stops before the character `c`. -/
def stopsBefore (gap : Gap) (c : Char) (r : Text) : Bool :=
  (gap != .empty && c == '#') || (c == ':' && atGap r)

section Key

variable {out : Text} {gap : Gap} {line column indent : Nat}

/-- Within a line a plain scalar goes on or stops at a character that is no
white space. -/
theorem plainFrom_cons {c : Char} {r : Text} (hc : isGap c = false) (hcolumn : column ≠ 0)
    (hindent : gap = .empty ∨ indent ≤ column) :
    plainFrom false indent out gap line column (c :: r) =
      if stopsBefore gap c r then .ok ⟨out.reverse, ⟨c :: r, line, column⟩, gap.hasBreak⟩
      else plainFrom false indent (c :: (gap.fold ++ out)) .empty line (column + 1) r := by
  obtain ⟨hblank, hbreak⟩ := Bool.or_eq_false_iff.mp hc
  have hshallow : ¬(gap ≠ .empty ∧ ¬false = true ∧ column < indent) := by
    rintro ⟨hne, -, hlt⟩
    rcases hindent with hempty | hle
    · exact hne hempty
    · exact Nat.not_lt.mpr hle hlt
  have hmargin : ¬(column = 0 ∧ Source.atMarker (c :: r) = true) := fun h => hcolumn h.1
  rw [plainFrom, if_neg (by simp [hblank]), if_neg (by simp [hbreak]), if_neg hshallow,
    if_neg hmargin]
  by_cases hsign : gap ≠ .empty ∧ c = '#'
  · rw [if_pos hsign, if_pos (by simp [stopsBefore, hsign])]
  · rw [if_neg hsign, if_neg (by simp)]
    by_cases hcolon : c = ':' ∧ atGap r = true
    · rw [if_pos hcolon, if_pos (by simp [stopsBefore, hcolon])]
    · have hstops : stopsBefore gap c r = false := by
        simp only [stopsBefore, Bool.or_eq_false_iff, Bool.and_eq_false_iff, bne_eq_false_iff_eq,
          beq_eq_false_iff_ne]
        constructor
        · by_cases hgap : gap = .empty
          · exact Or.inl hgap
          · exact Or.inr fun h => hsign ⟨hgap, h⟩
        · by_cases h : c = ':'
          · exact Or.inr (by simpa using fun hr => hcolon ⟨h, hr⟩)
          · exact Or.inl h
      rw [if_neg hcolon, hstops, if_neg (by simp), if_neg (by simp)]

/-- The rest of a key is read alike before any text behind its colon. -/
theorem plainFrom_key {key text : Text} {column' stop : Nat}
    (h : plainFrom false 0 out gap 0 column' (key ++ [':', ' ']) =
      .ok ⟨text, ⟨[':', ' '], 0, stop⟩, false⟩)
    (hcolumn' : column' ≠ 0) (hcolumn : column ≠ 0) (hindent : indent ≤ column) (line : Nat)
    (r : Text) :
    plainFrom false indent out gap line column (key ++ ':' :: ' ' :: r) =
      .ok ⟨text, ⟨':' :: ' ' :: r, line, column + key.length⟩, false⟩ := by
  have hcolon : isGap ':' = false := by decide
  induction key generalizing out gap column column' with
  | nil =>
      have hstops : ∀ x, stopsBefore gap ':' (' ' :: x) = true := by
        intro x
        have hgap : atGap (' ' :: x) = true := rfl
        simp [stopsBefore, hgap]
      rw [List.nil_append, plainFrom_cons hcolon hcolumn' (Or.inr (Nat.zero_le _)), hstops,
        if_pos rfl, Except.ok.injEq, PlainScalar.mk.injEq] at h
      rw [List.nil_append, plainFrom_cons hcolon hcolumn (Or.inr hindent), hstops, if_pos rfl,
        h.1, h.2.2]
      rfl
  | cons c key ih =>
      have hlength : column + (c :: key).length = column + 1 + key.length := by
        rw [List.length_cons]
        omega
      rw [hlength]
      rw [List.cons_append] at h ⊢
      by_cases hblank : isBlank c = true
      · rw [plainFrom, if_pos hblank, if_neg (by simp)] at h
        rw [plainFrom, if_pos hblank, if_neg fun h => Nat.not_lt.mpr hindent h.2.1]
        exact ih h (Nat.succ_ne_zero _) (Nat.succ_ne_zero _) (Nat.le_succ_of_le hindent)
      · by_cases hbreak : isBreak c = true
        · -- the key would end on another line
          rw [plainFrom, if_neg hblank, if_pos hbreak] at h
          exact absurd (le_line_of_plainFrom h) (by simp)
        · have hc : isGap c = false := by simp [isGap, hblank, hbreak]
          have hsame : stopsBefore gap c (key ++ ':' :: ' ' :: r) =
              stopsBefore gap c (key ++ [':', ' ']) := by
            cases key <;> rfl
          rw [plainFrom_cons hc hcolumn' (Or.inr (Nat.zero_le _))] at h
          rw [plainFrom_cons hc hcolumn (Or.inr hindent), hsame]
          cases hstops : stopsBefore gap c (key ++ [':', ' ']) with
          | true =>
              rw [hstops, if_pos rfl, Except.ok.injEq, PlainScalar.mk.injEq, Cursor.mk.injEq] at h
              have hsize := congrArg List.length h.2.1.1
              simp at hsize
          | false =>
              rw [hstops, if_neg Bool.false_ne_true] at h
              rw [if_neg Bool.false_ne_true]
              exact ih h (Nat.succ_ne_zero _) (Nat.succ_ne_zero _) (Nat.le_succ_of_le hindent)

end Key

end Token

namespace Scalar
/-- A bare key begins with a character that begins no other token. -/
def opensKey : Text → Bool
  | [] => false
  | c :: r =>
    !(isGap c || Scan.isIndicator c) || ((c == '-' || c == '?' || c == ':') && !atGap (r ++ [':']))

/-- A key that is read back when it is written bare: the reader takes it whole
before a colon, and it spells a string. -/
structure ReadsKey (key : Text) : Prop where
  opens : opensKey key = true
  whole : Token.plain false 0 ⟨key ++ [':', ' '], 0, 1⟩ =
    .ok ⟨key, ⟨[':', ' '], 0, 1 + key.length⟩, false⟩
  short : key.length ≤ 1024
  isString : Value.ofPlain key = .ok (.str key)
  inline : ∀ c ∈ key, isInline c = true

theorem exists_of_opensKey {key : Text} (h : opensKey key = true) :
    ∃ c r, key = c :: r ∧ isGap c = false ∧ c ≠ '#' := by
  cases key with
  | nil => cases h
  | cons c r =>
      refine ⟨c, r, rfl, ?_⟩
      simp only [opensKey, Bool.or_eq_true, Bool.not_eq_true', Bool.or_eq_false_iff,
        Bool.and_eq_true, beq_iff_eq] at h
      rcases h with ⟨hgap, hindicator⟩ | ⟨hmark, -⟩
      · exact ⟨hgap, ne_of_class hindicator (by decide)⟩
      · rcases hmark with (rfl | rfl) | rfl <;> exact ⟨by decide, by decide⟩

theorem dispatch_of_opensKey {state : Scan} {c : Char} {r : Text} (hflow : state.inFlow = false)
    (hcolumn : state.cursor.column ≠ 0) (hopens : opensKey (c :: r) = true) (x : Text) :
    state.dispatch c (r ++ ':' :: x) = state.plainScalar := by
  have hat : atGap (r ++ ':' :: x) = atGap (r ++ [':']) := by cases r <;> rfl
  simp only [opensKey, Bool.or_eq_true, Bool.not_eq_true', Bool.or_eq_false_iff,
    Bool.and_eq_true] at hopens
  rcases hopens with ⟨hgap, hindicator⟩ | ⟨hmark, hmore⟩
  · refine dispatch_of_startsPlain hflow hcolumn ?_ fun hc => ?_
    · simp [Scan.startsPlain, hgap, hindicator]
    · exact absurd hc (ne_of_class hindicator (by decide))
  · rw [← hat] at hmore
    have hblank : ((r ++ ':' :: x).head?.map isBlank).getD false = false := by
      cases hrest : r ++ ':' :: x with
      | nil => rfl
      | cons d y =>
          rw [hrest] at hmore
          exact (Bool.or_eq_false_iff.mp hmore).1
    refine dispatch_of_startsPlain hflow hcolumn ?_ fun _ => hmore
    simp only [Scan.startsPlain, hmore, hblank]
    rcases hmark with (hmark | hmark) | hmark <;> simp [hmark]

end Scalar

namespace Scan

variable {line column i : Nat} {is : List Nat} {allowed : Bool} {tokens : List Token} {key : Text}

theorem plainFrom_of_readsKey (hkey : Scalar.ReadsKey key) (hcolumn : column ≠ 0)
    (hi : i ≤ column) (line : Nat) (r : Text) :
    Token.plainFrom false (i + 1) [] .empty line column (key ++ ':' :: ' ' :: r) =
      .ok ⟨key, ⟨':' :: ' ' :: r, line, column + key.length⟩, false⟩ := by
  obtain ⟨c, rest, rfl, hc, -⟩ := Scalar.exists_of_opensKey hkey.opens
  have hwhole : Token.plainFrom false 0 [] .empty 0 1 (c :: (rest ++ [':', ' '])) =
      .ok ⟨c :: rest, ⟨[':', ' '], 0, 1 + (c :: rest).length⟩, false⟩ := hkey.whole
  have hsame : Token.stopsBefore .empty c (rest ++ ':' :: ' ' :: r) =
      Token.stopsBefore .empty c (rest ++ [':', ' ']) := by
    cases rest <;> rfl
  have hlength : column + (c :: rest).length = column + 1 + rest.length := by
    rw [List.length_cons]
    omega
  rw [Token.plainFrom_cons hc (by decide) (Or.inl rfl)] at hwhole
  rw [List.cons_append, Token.plainFrom_cons hc hcolumn (Or.inl rfl), hsame, hlength]
  cases hstops : Token.stopsBefore .empty c (rest ++ [':', ' ']) with
  | true =>
      rw [hstops, if_pos rfl, Except.ok.injEq, Token.PlainScalar.mk.injEq] at hwhole
      cases hwhole.1
  | false =>
      rw [hstops, if_neg Bool.false_ne_true] at hwhole
      rw [if_neg Bool.false_ne_true]
      exact Token.plainFrom_key hwhole (by decide) (Nat.succ_ne_zero column)
        (Nat.succ_le_succ hi) line r

theorem takesKey_bare (hkey : Scalar.ReadsKey key) : TakesKey key (.scalar true key) := by
  intro line column i is r before hcolumn hi
  refine ⟨column + key.length + 2, by omega, ?_⟩
  have hplain := plainFrom_of_readsKey hkey hcolumn hi line r
  obtain ⟨c, rest, rfl, hc, hsign⟩ := Scalar.exists_of_opensKey hkey.opens
  have happroach : (inBlock ⟨c :: rest ++ ':' :: ' ' :: r, line, column⟩ (i :: is) true
      before).approach = _ := approach_at hc hsign hcolumn hi
  have hdispatch : (inBlock ⟨c :: rest ++ ':' :: ' ' :: r, line, column⟩ (i :: is) true
      before).dispatch c (rest ++ ':' :: ' ' :: r) = _ :=
    (Scalar.dispatch_of_opensKey rfl hcolumn hkey.opens _).trans (plainScalar_inBlock hplain)
  rw [finish_of_dispatch happroach rfl hdispatch]
  exact finish_colon hcolumn hi hkey.short

/-! ### Quoted keys -/

theorem quotedFrom_inside {s tail : Text} {q : Token.QuotedState} (hq : q.skip = 0)
    (hs : ∀ c ∈ s, Source.isSeparator c = false) (hcolumn : column ≠ 0) :
    Token.quotedFrom true q line column (Token.inside true s ++ tail) =
      .ok ((s.foldl Token.QuotedState.read q).finish,
        ⟨tail, line, column + (Token.inside true s).length⟩) := by
  induction s generalizing q column with
  | nil =>
      obtain ⟨out, gap, skip⟩ := q
      obtain rfl : skip = 0 := hq
      have hmarker : Source.atMarker ('"' :: tail) = false :=
        Token.atMarker_cons_of_ne (by decide) (by decide)
      have hinside : Token.inside true [] ++ tail = '"' :: tail := rfl
      rw [hinside, Token.quotedFrom]
      simp only [Nat.lt_irrefl, if_false, hmarker, Bool.false_eq_true, and_false]
      rfl
  | cons c s ih =>
      obtain ⟨out, gap, skip⟩ := q
      obtain rfl : skip = 0 := hq
      have hrest := fun d hd => hs d (List.mem_cons_of_mem c hd)
      have hlength : column + (Token.inside true (c :: s)).length =
          column + (Token.encode true c).length + (Token.inside true s).length := by
        rw [Token.inside_cons, List.length_append, Nat.add_assoc]
      rw [hlength, List.foldl_cons, Token.inside_cons, List.append_assoc]
      by_cases hspace : c = ' '
      · subst hspace
        have hencode : Token.encode true ' ' = [' '] := rfl
        rw [hencode, List.singleton_append, Token.quotedFrom_blank]
        exact ih rfl hrest (Nat.succ_ne_zero column)
      · have hopen : Source.isOpenGap c = false := by
          simp [Source.isOpenGap, hspace, hs c (List.mem_cons_self ..)]
        rw [Token.quotedFrom_encode (Or.inl rfl) hopen fun h => absurd h hcolumn,
          Token.QuotedState.read_word hopen]
        exact ih rfl hrest (by omega)

theorem takesKey_doubleQuoted (hkey : ∀ c ∈ key, Source.isSeparator c = false)
    (hshort : (Scalar.doubleQuoted key).length ≤ 1024) :
    TakesKey (Scalar.doubleQuoted key) (.scalar false key) := by
  intro line column i is r before hcolumn hi
  refine ⟨column + (Scalar.doubleQuoted key).length + 2, by omega, ?_⟩
  have hfold : (key.foldl Token.QuotedState.read .start).finish = key :=
    Token.folded_eq_iff.mpr (Scalar.readsQuoted_of_isSeparator hkey).apart
  have hlength : column + (Scalar.doubleQuoted key).length =
      column + 1 + (Token.inside true key).length := by
    rw [Token.doubleQuoted_eq, List.length_cons]
    omega
  have hread : Token.quotedFrom true .start line (column + 1)
      (Token.inside true key ++ ':' :: ' ' :: r) =
        .ok (key, ⟨':' :: ' ' :: r, line, column + (Scalar.doubleQuoted key).length⟩) := by
    rw [quotedFrom_inside rfl hkey (Nat.succ_ne_zero column), hfold, hlength]
  rw [finish_of_quoted hcolumn hi hread]
  exact finish_colon hcolumn hi hshort

/-! ## Empty flow collections -/

section Flow

variable {c d : Char} {start stop : Token} {tail : Text}

theorem dispatch_openSequence (s : Scan) (r : Text) :
    s.dispatch '[' r = s.openFlow .flowSequenceStart := by
  have hmarker : Source.atMarker ('[' :: r) = false :=
    Token.atMarker_cons_of_ne (by decide) (by decide)
  unfold dispatch
  simp [hmarker]

theorem dispatch_closeSequence (s : Scan) (r : Text) :
    s.dispatch ']' r = s.closeFlow .flowSequenceEnd := by
  have hmarker : Source.atMarker (']' :: r) = false :=
    Token.atMarker_cons_of_ne (by decide) (by decide)
  unfold dispatch
  simp [hmarker]

theorem dispatch_openMapping (s : Scan) (r : Text) :
    s.dispatch '\x7b' r = s.openFlow .flowMappingStart := by
  have hmarker : Source.atMarker ('\x7b' :: r) = false :=
    Token.atMarker_cons_of_ne (by decide) (by decide)
  unfold dispatch
  simp [hmarker]

theorem dispatch_closeMapping (s : Scan) (r : Text) :
    s.dispatch '\x7d' r = s.closeFlow .flowMappingEnd := by
  have hmarker : Source.atMarker ('\x7d' :: r) = false :=
    Token.atMarker_cons_of_ne (by decide) (by decide)
  unfold dispatch
  simp [hmarker]

/-- The state behind the opening of a flow collection in which no key has
begun. -/
def inFlowAt (cursor : Cursor) (indents : List Nat) (k : Option KeyStart) (tokens : List Token) :
    Scan :=
  ⟨cursor, indents, none, [k], true, tokens⟩

theorem openFlow_inBlock (hi : i < column) :
    ∃ k, (∀ a ∈ k, KeyStart.line a = line ∧ a.column = column ∧ a.required = false) ∧
      (inBlock ⟨c :: d :: tail, line, column⟩ (i :: is) allowed tokens).openFlow start =
        .ok (inFlowAt ⟨d :: tail, line, column + 1⟩ (i :: is) k (start :: tokens)) := by
  cases allowed with
  | false => exact ⟨none, by simp, rfl⟩
  | true =>
      refine ⟨some ⟨tokens.length, line, column, i == column⟩, ?_, rfl⟩
      simp only [Option.mem_def, Option.some.injEq, forall_eq', true_and, beq_eq_false_iff_ne]
      omega

theorem approach_inFlowAt {k : Option KeyStart} (hd : isGap d = false) (hsign : d ≠ '#')
    (hk : ∀ a ∈ k, KeyStart.line a = line ∧ a.column = column ∧ a.required = false) :
    (inFlowAt ⟨d :: tail, line, column + 1⟩ is k tokens).approach =
      .ok (inFlowAt ⟨d :: tail, line, column + 1⟩ is k tokens) := by
  have hgap : skipGap true true false line (column + 1) (d :: tail) =
      (⟨d :: tail, line, column + 1⟩, true) :=
    skipGap_of_isGap_eq_false hd hsign (Nat.succ_ne_zero column)
  have hskipped : (inFlowAt ⟨d :: tail, line, column + 1⟩ is k tokens).next =
      (⟨d :: tail, line, column + 1⟩, true) := hgap
  have hrefresh : refresh ⟨d :: tail, line, column + 1⟩ k = .ok k := by
    cases k with
    | none => rfl
    | some a =>
        obtain ⟨hline, hcolumn, -⟩ := hk a rfl
        rw [refresh, if_neg]
        rw [hline, hcolumn]
        dsimp only
        omega
  have hnone : refresh ⟨d :: tail, line, column + 1⟩ none = .ok none := rfl
  rw [approach_eq, skipped, hskipped]
  simp only [dropStale, inFlowAt, hrefresh, hnone, bind, Except.bind, List.mapM_cons,
    List.mapM_nil, pure, Except.pure, unroll, inFlow, List.isEmpty_cons, Bool.not_false, if_true]

/-- An empty flow collection at the end of its line, where a key may begin or
not. -/
theorem finish_emptyFlow (hopen : ∀ (s : Scan) (r : Text), s.dispatch c r = s.openFlow start)
    (hclose : ∀ (s : Scan) (r : Text), s.dispatch d r = s.closeFlow stop)
    (hc : isGap c = false) (hcsign : c ≠ '#') (hd : isGap d = false) (hdsign : d ≠ '#')
    (hcolumn : column ≠ 0) (hi : i < column)
    (hover : line < (skipGap false false false line (column + 2) tail).1.line ∨
      (skipGap false false false line (column + 2) tail).1.rest = []) :
    (inBlock ⟨c :: d :: tail, line, column⟩ (i :: is) allowed tokens).finish =
      (inBlock ⟨tail, line, column + 2⟩ (i :: is) false (stop :: start :: tokens)).finish := by
  obtain ⟨k, hk, hopened⟩ :
      ∃ k, (∀ a ∈ k, KeyStart.line a = line ∧ a.column = column ∧ a.required = false) ∧
        (inBlock ⟨c :: d :: tail, line, column⟩ (i :: is) allowed tokens).openFlow start =
          .ok (inFlowAt ⟨d :: tail, line, column + 1⟩ (i :: is) k (start :: tokens)) :=
    openFlow_inBlock hi
  have hclosed : (inFlowAt ⟨d :: tail, line, column + 1⟩ (i :: is) k
      (start :: tokens)).closeFlow stop =
        .ok { inBlock ⟨tail, line, column + 2⟩ (i :: is) false (stop :: start :: tokens) with
          candidate := k } := rfl
  rw [finish_of_dispatch (approach_at hc hcsign hcolumn (Nat.le_of_lt hi)) rfl
      ((hopen _ _).trans hopened),
    finish_of_dispatch (approach_inFlowAt hd hdsign hk) rfl ((hclose _ _).trans hclosed)]
  cases k with
  | none => rfl
  | some a =>
      obtain ⟨hline, -, hrequired⟩ := hk a rfl
      refine finish_of_candidate hrequired ?_
      rwa [hline]

end Flow

end Scan

end Marginalia.Yaml
