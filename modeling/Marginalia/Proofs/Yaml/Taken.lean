import Marginalia.Proofs.Yaml.Bare
import Marginalia.Proofs.Yaml.Lifted

/-!
# What the reader takes for a value

Behind the colon of a key the reader takes no token or one scalar, when nothing
else stands on the line, and goes on at the place to which the lines below lead.
Two texts with the same lines below are therefore read with the same tokens
behind the value: `exists_run_of_takes`.  A plain scalar without white space and
colons is taken whole when the next content is no deeper than the key:
`takes_plain`.
-/

namespace Marginalia.Yaml

open Source (atGap isGap isBlank isBreak)

namespace Scan

/-- A gap ends at a character that is neither white space nor the sign of a
comment. -/
theorem skipGap_of_isGap_eq_false {flow allowed : Bool} {line column : Nat} {c : Char} {r : Text}
    (hc : isGap c = false) (hsign : c ≠ '#') (hcolumn : column ≠ 0) :
    skipGap flow allowed false line column (c :: r) = (⟨c :: r, line, column⟩, allowed) := by
  obtain ⟨hblank, hbreak⟩ := Bool.or_eq_false_iff.mp hc
  obtain ⟨hspace, htab⟩ := Bool.or_eq_false_iff.mp hblank
  rw [beq_eq_false_iff_ne] at hspace htab
  rw [skipGap]
  simp [hbreak, hcolumn, hspace, htab, hsign]

theorem skipGap_space (flow allowed : Bool) (line column : Nat) (r : Text) :
    skipGap flow allowed false line column (' ' :: r) =
      skipGap flow allowed false line (column + 1) r := by
  rw [skipGap]
  simp [isBreak]

/-- A tab is white space where no key may begin. -/
theorem skipGap_tab (line column : Nat) (r : Text) :
    skipGap false false false line column ('\t' :: r) =
      skipGap false false false line (column + 1) r := by
  rw [skipGap]
  simp [isBreak]

end Scan

namespace Token

/-- A gap leads over white space, unless that is a tab where a key may begin. -/
theorem skipGap_of_isBlank {allowed : Bool} {line column : Nat} {c : Char} {r : Text}
    {place : Cursor × Bool} (hblank : isBlank c = true)
    (hplace : Scan.skipGap false allowed false line column (c :: r) = place)
    (htab : place.1.rest.head? ≠ some '\t') :
    Scan.skipGap false allowed false line (column + 1) r = place ∧
      ¬(allowed = true ∧ c = '\t') := by
  rcases Bool.or_eq_true_iff.mp hblank with hc | hc
  · obtain rfl := beq_iff_eq.mp hc
    rw [Scan.skipGap_space] at hplace
    exact ⟨hplace, by simp⟩
  · obtain rfl := beq_iff_eq.mp hc
    cases allowed with
    | false =>
        rw [Scan.skipGap_tab] at hplace
        exact ⟨hplace, by simp⟩
    | true =>
        -- below the line of the key a tab would be the place itself
        rw [Scan.skipGap] at hplace
        simp only [isBreak] at hplace
        simp at hplace
        rw [← hplace] at htab
        simp at htab

/-- Behind white space a plain scalar ends before a comment and before content
that is not deep enough. -/
theorem plainFrom_of_isGap_eq_false {indent line column : Nat} {c : Char} {r : Text} (out : Text)
    {gap : Gap} (hc : isGap c = false) (hgap : gap ≠ .empty)
    (hstop : column < indent + 1 ∨ c = '#') :
    plainFrom false (indent + 1) out gap line column (c :: r) =
      .ok ⟨out.reverse, ⟨c :: r, line, column⟩, gap.hasBreak⟩ := by
  obtain ⟨hblank, hbreak⟩ := Bool.or_eq_false_iff.mp hc
  rw [plainFrom, hblank, hbreak, if_neg Bool.false_ne_true, if_neg Bool.false_ne_true]
  by_cases hcolumn : column < indent + 1
  · rw [if_pos ⟨hgap, by simp, hcolumn⟩]
  · rw [if_neg fun h => hcolumn h.2.2, if_neg fun h => hcolumn (by omega),
      if_pos ⟨hgap, hstop.resolve_left hcolumn⟩]

/-- A plain scalar ends with its line when the next content is no deeper than
`indent` columns, and then the gap behind it leads to that content. -/
theorem exists_plainFrom_behind {indent line column : Nat} {tail : Text} {place : Cursor × Bool}
    (out : Text) (gap : Gap)
    (hplace : Scan.skipGap false gap.hasBreak false line column tail = place)
    (hgap : gap ≠ .empty ∨ atGap tail = true)
    (hshallow : place.1.rest = [] ∨ place.1.column ≤ indent)
    (htab : place.1.rest.head? ≠ some '\t') :
    ∃ stop crossed, plainFrom false (indent + 1) out gap line column tail =
        .ok ⟨out.reverse, stop, crossed⟩ ∧
      Scan.skipGap false crossed false stop.line stop.column stop.rest = place := by
  induction tail generalizing gap line column with
  | nil => exact ⟨⟨[], line, column⟩, gap.hasBreak, rfl, hplace⟩
  | cons c r ih =>
      by_cases hbreak : isBreak c = true
      · have hblank : isBlank c = false := by
          simp only [isBreak, Bool.or_eq_true, beq_iff_eq, or_assoc] at hbreak
          rcases hbreak with rfl | rfl | rfl <;> rfl
        have hnext : (gap.lineBreak c).hasBreak = true := by cases gap <;> rfl
        have hgap' : gap.lineBreak c ≠ .empty := by
          intro h
          rw [h] at hnext
          cases hnext
        rw [Scan.skipGap, if_pos hbreak, Bool.not_false, Bool.or_true, ← hnext] at hplace
        rw [plainFrom, hblank, if_neg Bool.false_ne_true, if_pos hbreak]
        exact ih _ hplace (Or.inl hgap')
      · by_cases hblank : isBlank c = true
        · obtain ⟨hplace, hnone⟩ := skipGap_of_isBlank hblank hplace htab
          have hnext : (gap.blank c).hasBreak = gap.hasBreak := by cases gap <;> rfl
          have hgap' : gap.blank c ≠ .empty := by
            cases gap <;> simp [Gap.blank, Gap.empty]
          rw [plainFrom, if_pos hblank, if_neg fun h => hnone ⟨h.1, h.2.2⟩]
          rw [← hnext] at hplace
          exact ih _ hplace (Or.inl hgap')
        · have hc : isGap c = false := by simp [isGap, hbreak, hblank]
          have hgap' : gap ≠ .empty := by
            refine hgap.resolve_right ?_
            simp [atGap, hc]
          -- on the line of the key only a comment may follow, and below it
          -- nothing deeper
          have hstop : column < indent + 1 ∨ c = '#' := by
            by_contra hnone
            obtain ⟨hdeep, hsign⟩ := not_or.mp hnone
            rw [Scan.skipGap_of_isGap_eq_false hc hsign (by omega)] at hplace
            rw [← hplace] at hshallow
            simp only [reduceCtorEq, false_or] at hshallow
            omega
          exact ⟨_, _, plainFrom_of_isGap_eq_false out hc hgap' hstop, hplace⟩

end Token

namespace Scan

/-- Two places at which the reader goes on alike: they are the same one, or
nothing is left. -/
def SamePlace (p q : Cursor × Bool) : Prop :=
  p = q ∨ (p.1.rest = [] ∧ q.1.rest = [])

def step? (s : Scan) : Option Scan :=
  match s.approach with
  | .error _ => none
  | .ok a =>
    match a.cursor.rest with
    | [] => none
    | c :: r => (a.dispatch c r).toOption

def behindScalar (s : Scan) (bare : Bool) (text : Text) (cursor : Cursor) (keyAllowed : Bool) :
    Scan :=
  { s with cursor, keyAllowed, tokens := .scalar bare text :: s.tokens }

/-- The state at a place, without the tokens that were read before. -/
def resume (s : Scan) (place : Cursor × Bool) : Scan :=
  { s with cursor := place.1, keyAllowed := place.2, tokens := [] }

/-- With `rest` behind the colon the reader takes these tokens for the value and
then is at `place`. -/
inductive Takes (s : Scan) (rest : Text) (place : Cursor × Bool) : List Token → Prop
  | absent (hplace : SamePlace (s.append rest).next place) : Takes s rest place []
  | scalar {bare : Bool} {text : Text} {cursor : Cursor} {keyAllowed : Bool}
      (hstep : (s.append rest).step? = some (s.behindScalar bare text cursor keyAllowed))
      (hplace : SamePlace (s.behindScalar bare text cursor keyAllowed).next place) :
      Takes s rest place [.scalar bare text]

theorem Takes.eq_nil_or {s : Scan} {rest : Text} {place : Cursor × Bool} {ts : List Token}
    (h : Takes s rest place ts) : ts = [] ∨ ∃ bare text, ts = [.scalar bare text] := by
  cases h with
  | absent => exact Or.inl rfl
  | scalar => exact Or.inr ⟨_, _, rfl⟩

/-! ## Going on -/

theorem run_of_step? {s s' : Scan} (h : s.step? = some s') (n : Nat) :
    run (n + 1) s = run n s' ∧ s'.cursor.rest.length < s.cursor.rest.length := by
  unfold step? at h
  cases happroach : s.approach with
  | error e => simp [happroach] at h
  | ok a =>
      have hskip : a.cursor.rest.length ≤ s.cursor.rest.length := by
        rw [ensures_approach s a happroach]
        exact length_skipGap_le _ _ _ _ _ _
      simp only [happroach] at h
      split at h
      · cases h
      · next c r hrest =>
          cases hdispatch : a.dispatch c r with
          | error e => simp [hdispatch, Except.toOption] at h
          | ok b =>
              obtain rfl : b = s' := by simpa [hdispatch, Except.toOption] using h
              have hread := length_rest_dispatch hrest b hdispatch
              rw [hrest, List.length_cons] at hskip
              refine ⟨?_, by omega⟩
              rw [run_eq_dispatch happroach hrest, hdispatch]
              rfl

/-- No token begins with a tab. -/
theorem exists_dispatch_tab_eq_error (s : Scan) (r : Text) : ∃ e, s.dispatch '\t' r = .error e := by
  have hmarker : Source.atMarker ('\t' :: r) = false := rfl
  have hstarts : startsPlain s.inFlow '\t' r = false := by
    simp [startsPlain, isGap, isBlank]
  refine ⟨.unexpectedCharacter '\t', ?_⟩
  unfold dispatch
  simp [hmarker, hstarts]

theorem run_ne_ok_of_tab {s : Scan} (h : s.next.1.rest.head? = some '\t') (n : Nat)
    (tokens : List Token) : run n s ≠ .ok tokens := by
  intro hrun
  cases n with
  | zero => cases hrun
  | succ n =>
      cases happroach : s.approach with
      | error e => simp [run, happroach, bind, Except.bind] at hrun
      | ok a =>
          obtain ⟨r, hr⟩ := List.head?_eq_some_iff.mp h
          have hrest : a.cursor.rest = '\t' :: r := by
            rw [ensures_approach s a happroach, hr]
          obtain ⟨e, he⟩ := exists_dispatch_tab_eq_error a r
          rw [run_eq_dispatch happroach hrest, he] at hrun
          cases hrun

/-- A text that is read has no tab where a key may begin. -/
theorem Takes.head?_ne_tab {s : Scan} {rest : Text} {place : Cursor × Bool} {ts tokens : List Token}
    (h : Takes s rest place ts) {n : Nat} (hrun : run n (s.append rest) = .ok tokens) :
    place.1.rest.head? ≠ some '\t' := by
  have hsame : ∀ {x : Scan} {n : Nat}, SamePlace x.next place → run n x = .ok tokens →
      place.1.rest.head? ≠ some '\t' := by
    rintro x n (hplace | ⟨-, hend⟩) hx htab
    · rw [← hplace] at htab
      exact run_ne_ok_of_tab htab n tokens hx
    · rw [hend] at htab
      cases htab
  cases h with
  | absent hplace => exact hsame hplace hrun
  | scalar hstep hplace =>
      cases n with
      | zero => cases hrun
      | succ n =>
          rw [(run_of_step? hstep n).1] at hrun
          exact hsame hplace hrun

theorem skipGap_skipGap (flow allowed comment : Bool) (line column : Nat) (t : Text) :
    skipGap flow (skipGap flow allowed comment line column t).2 false
        (skipGap flow allowed comment line column t).1.line
        (skipGap flow allowed comment line column t).1.column
        (skipGap flow allowed comment line column t).1.rest =
      skipGap flow allowed comment line column t := by
  induction t generalizing allowed comment line column with
  | nil => rfl
  | cons c r ih =>
      rw [skipGap]
      split_ifs with hbreak hcomment hmark hblank hsign
      · exact ih _ _ _ _
      · exact ih _ _ _ _
      · exact ih _ _ _ _
      · exact ih _ _ _ _
      · exact ih _ _ _ _
      · rw [skipGap]
        simp only [hbreak, hmark, hblank, hsign, if_false, Bool.false_eq_true]

theorem map_blockEnd_append_cons (indents : List Nat) (tokens : List Token) :
    indents.map (fun _ => Token.blockEnd) ++ .blockEnd :: tokens =
      .blockEnd :: (indents.map (fun _ => Token.blockEnd) ++ tokens) := by
  induction indents with
  | nil => rfl
  | cons i indents ih => rw [List.map_cons, List.cons_append, ih, List.cons_append]

theorem closeIndents_blockEnd (column : Nat) (indents : List Nat) (tokens : List Token) :
    (closeIndents column indents tokens).1.map (fun _ => Token.blockEnd) ++
        (closeIndents column indents tokens).2 =
      indents.map (fun _ => Token.blockEnd) ++ tokens := by
  induction indents generalizing tokens with
  | nil => rfl
  | cons i is ih =>
      rw [closeIndents]
      split
      · rw [ih, map_blockEnd_append_cons]
        rfl
      · rfl

section Place

variable {s s' : Scan} (hcandidate : s.candidate = none) (houter : s.outer = [])

include hcandidate houter

theorem approach_of_candidate_eq_none : s.approach = .ok (s.skipped.unroll s.next.1.column) := by
  have hstale : s.skipped.dropStale = .ok s.skipped := by
    obtain ⟨cursor, indents, _, _, keyAllowed, tokens⟩ := s
    obtain rfl := hcandidate
    obtain rfl := houter
    rfl
  rw [approach_eq, hstale]
  rfl

/-- At the end of the text every block collection ends. -/
theorem run_of_rest_eq_nil (hrest : s.next.1.rest = []) (n : Nat) :
    run (n + 1) s = .ok (s.indents.map (fun _ => Token.blockEnd) ++ s.tokens) := by
  obtain ⟨cursor, indents, _, _, keyAllowed, tokens⟩ := s
  obtain rfl := hcandidate
  obtain rfl := houter
  have hclosed := closeIndents_blockEnd
    (next ⟨cursor, indents, none, [], keyAllowed, tokens⟩).1.column indents tokens
  have hcursor := cursor_unroll (skipped ⟨cursor, indents, none, [], keyAllowed, tokens⟩)
    (next ⟨cursor, indents, none, [], keyAllowed, tokens⟩).1.column
  have hend : ((skipped ⟨cursor, indents, none, [], keyAllowed, tokens⟩).unroll
      (next ⟨cursor, indents, none, [], keyAllowed, tokens⟩).1.column).cursor.rest = [] := by
    rw [hcursor]
    exact hrest
  rw [run, approach_of_candidate_eq_none rfl rfl]
  simp only [bind, Except.bind, hend]
  exact congrArg Except.ok hclosed

/-- Where the reader goes on depends on the place and on the open
collections. -/
theorem run_of_samePlace (hindents : s'.indents = s.indents) (hcandidate' : s'.candidate = none)
    (houter' : s'.outer = []) (htokens : s'.tokens = s.tokens)
    (hplace : SamePlace s.next s'.next) (n : Nat) : run (n + 1) s = run (n + 1) s' := by
  rcases hplace with hsame | ⟨hend, hend'⟩
  · have hskipped : s.skipped = s'.skipped := by
      obtain ⟨cursor, indents, candidate, outer, keyAllowed, tokens⟩ := s
      obtain ⟨cursor', indents', candidate', outer', keyAllowed', tokens'⟩ := s'
      dsimp only at hindents hcandidate' houter' htokens hcandidate houter
      subst hindents hcandidate' houter' htokens hcandidate houter
      rw [skipped, skipped, hsame]
    rw [run, run, approach_eq, approach_eq, hskipped, hsame]
  · rw [run_of_rest_eq_nil hcandidate houter hend, run_of_rest_eq_nil hcandidate' houter' hend',
      hindents, htokens]

end Place

section Takes

variable {s : Scan} (hcandidate : s.candidate = none) (houter : s.outer = [])

include hcandidate houter

/-- The reader goes on from the place, and in front of what it reads stand the
tokens so far. -/
theorem run_of_place {x : Scan} {place : Cursor × Bool} (hindents : x.indents = s.indents)
    (hcandidate' : x.candidate = none) (houter' : x.outer = []) (hplace : SamePlace x.next place)
    {n : Nat} (hn : x.cursor.rest.length < n) :
    run n x = (run (place.1.rest.length + 1) (s.resume place)).map (· ++ x.tokens) := by
  obtain ⟨m, rfl⟩ : ∃ m, n = m + 1 := ⟨n - 1, by omega⟩
  have hskip : x.next.1.rest.length ≤ x.cursor.rest.length := length_skipGap_le _ _ _ _ _ _
  have hflow : x.inFlow = false := by simp [inFlow, houter']
  have hflow' : (s.resume place).inFlow = false := by simp [resume, inFlow, houter]
  have hnext : (s.resume place).next =
      skipGap false place.2 false place.1.line place.1.column place.1.rest := by
    rw [next, hflow']
    rfl
  have hsame : SamePlace x.next (s.resume place).next ∧ place.1.rest.length < m + 1 := by
    rw [hnext]
    rcases hplace with rfl | ⟨hend, hend'⟩
    · have hgap := skipGap_skipGap x.inFlow x.keyAllowed false x.cursor.line x.cursor.column
        x.cursor.rest
      rw [hflow] at hgap
      refine ⟨Or.inl ?_, by omega⟩
      rw [next, hflow, hgap]
    · rw [hend']
      exact ⟨Or.inr ⟨hend, rfl⟩, Nat.succ_pos m⟩
  have hlift : run (m + 1) x = run (m + 1) ((s.resume place).lift x.tokens 0) := by
    have hnext' : ((s.resume place).lift x.tokens 0).next = (s.resume place).next :=
      next_lift x.tokens 0 (s.resume place)
    have hindents' : ((s.resume place).lift x.tokens 0).indents = x.indents := hindents.symm
    apply run_of_samePlace hcandidate' houter' hindents'
    · simp [lift, resume, hcandidate]
    · simp [lift, resume, houter]
    · rfl
    · rw [hnext']
      exact hsame.1
  rw [hlift, run_lift]
  exact congrArg _ (run_eq_of_length_lt hsame.2 (Nat.lt_succ_self _))

/-- Behind the value the reader goes on from the place. -/
theorem run_of_takes {rest : Text} {place : Cursor × Bool} {ts : List Token}
    (h : Takes s rest place ts) {n : Nat} (hn : (s.append rest).cursor.rest.length < n) :
    run n (s.append rest) =
      (run (place.1.rest.length + 1) (s.resume place)).map (· ++ (ts.reverse ++ s.tokens)) := by
  cases h with
  | absent hplace =>
      have hindents : (s.append rest).indents = s.indents := rfl
      exact run_of_place hcandidate houter hindents hcandidate houter hplace hn
  | @scalar bare text cursor keyAllowed hstep hplace =>
      obtain ⟨m, rfl⟩ : ∃ m, n = m + 1 := ⟨n - 1, by omega⟩
      obtain ⟨hrun, hlength⟩ := run_of_step? hstep m
      have hindents : (s.behindScalar bare text cursor keyAllowed).indents = s.indents := rfl
      rw [hrun]
      exact run_of_place hcandidate houter hindents hcandidate houter hplace (by omega)

/-- What is read behind the value does not depend on the value. -/
theorem exists_run_of_takes {rest rest' : Text} {place : Cursor × Bool} {ts ts' tokens : List Token}
    (h : Takes s rest place ts) (h' : Takes s rest' place ts') {n n' : Nat}
    (hn : (s.append rest).cursor.rest.length < n) (hn' : (s.append rest').cursor.rest.length < n')
    (hrun : run n (s.append rest) = .ok tokens) :
    ∃ later, tokens = later ++ (ts.reverse ++ s.tokens) ∧
      run n' (s.append rest') = .ok (later ++ (ts'.reverse ++ s.tokens)) := by
  rw [run_of_takes hcandidate houter h hn] at hrun
  rw [run_of_takes hcandidate houter h' hn']
  cases hlater : run (place.1.rest.length + 1) (s.resume place) with
  | error e => simp [hlater, Except.map] at hrun
  | ok later =>
      rw [hlater] at hrun
      exact ⟨later, (Except.ok.inj hrun).symm, rfl⟩

end Takes

/-! ## Plain scalars -/

/-- The reader is behind the colon of a key of a block mapping, with nothing
left of the text; the keys of the mapping stand at the column `indent`. -/
structure AwaitsValue (s : Scan) (indent : Nat) : Prop where
  rest : s.cursor.rest = []
  candidate : s.candidate = none
  outer : s.outer = []
  keyAllowed : s.keyAllowed = false
  indent_eq : s.indent? = some indent
  indent_lt : indent < s.cursor.column

section Plain

variable {line column : Nat}

theorem skipGap_blanks {gap : Text} (hgap : ∀ c ∈ gap, isBlank c = true) (x : Text) :
    skipGap false false false line column (gap ++ x) =
      skipGap false false false line (column + gap.length) x := by
  induction gap generalizing column with
  | nil => rfl
  | cons c gap ih =>
      have hlength : column + (c :: gap).length = column + 1 + gap.length := by
        rw [List.length_cons]
        omega
      rw [List.cons_append, hlength, ← ih fun d hd => hgap d (List.mem_cons_of_mem c hd)]
      rcases Bool.or_eq_true_iff.mp (hgap c (List.mem_cons_self ..)) with hc | hc
      · obtain rfl := beq_iff_eq.mp hc
        exact skipGap_space ..
      · obtain rfl := beq_iff_eq.mp hc
        exact skipGap_tab ..

/-- Text behind the colon that begins with another character than white
space. -/
theorem AwaitsValue.approach_append {s : Scan} {indent : Nat} (h : s.AwaitsValue indent)
    {gap r : Text} {c : Char} (hgap : ∀ d ∈ gap, isBlank d = true) (hc : isGap c = false)
    (hsign : c ≠ '#') :
    (s.append (gap ++ c :: r)).approach =
      .ok { s with cursor := ⟨c :: r, s.cursor.line, s.cursor.column + gap.length⟩ } := by
  obtain ⟨⟨_, line, column⟩, indents, _, _, _, tokens⟩ := s
  obtain ⟨rfl, rfl, rfl, rfl, hindent, hcolumn⟩ := h
  dsimp only at hcolumn
  obtain ⟨is, rfl⟩ := List.head?_eq_some_iff.mp hindent
  have hnext : (append ⟨⟨[], line, column⟩, indent :: is, none, [], false, tokens⟩
      (gap ++ c :: r)).next = (⟨c :: r, line, column + gap.length⟩, false) := by
    have hskip : skipGap false false false line column (gap ++ c :: r) =
        (⟨c :: r, line, column + gap.length⟩, false) := by
      rw [skipGap_blanks hgap, skipGap_of_isGap_eq_false hc hsign (by omega)]
    exact hskip
  have hclose : closeIndents (column + gap.length) (indent :: is) tokens =
      (indent :: is, tokens) := by
    rw [closeIndents, if_neg (by omega)]
  rw [approach_of_candidate_eq_none rfl rfl, skipped, hnext]
  simp only [unroll, inFlow, append, List.isEmpty_nil, Bool.not_true, Bool.false_eq_true, if_false,
    hclose]

/-- A word ends with its line when the next content is no deeper than the key,
and the gap behind it leads to that content. -/
theorem AwaitsValue.exists_plainScalar {s : Scan} {indent : Nat} (h : s.AwaitsValue indent)
    {word tail : Text} (hword : ∀ c ∈ word, isGap c = false) (hcolon : ':' ∉ word)
    (htail : atGap tail = true) (hcolumn : column ≠ 0)
    (hshallow : (skipGap false false false line (column + word.length) tail).1.rest = [] ∨
      (skipGap false false false line (column + word.length) tail).1.column ≤ indent)
    (htab : (skipGap false false false line (column + word.length) tail).1.rest.head? ≠
      some '\t') :
    ∃ stop crossed, { s with cursor := ⟨word ++ tail, line, column⟩ : Scan }.plainScalar =
        .ok (s.behindScalar true word stop crossed) ∧
      (s.behindScalar true word stop crossed).next =
        skipGap false false false line (column + word.length) tail := by
  obtain ⟨stop, crossed, hstop, hresume⟩ := Token.exists_plainFrom_behind (word.reverse ++ [])
    .empty rfl (Or.inr htail) hshallow htab
  have hplain : Token.plain false (indent + 1) ⟨word ++ tail, line, column⟩ =
      .ok ⟨word, stop, crossed⟩ := by
    have hfrom : Token.plain false (indent + 1) ⟨word ++ tail, line, column⟩ =
        Token.plainFrom false (indent + 1) (word.reverse ++ []) .empty line
          (column + word.length) tail :=
      Token.plainFrom_append hword hcolon hcolumn
    rw [hfrom, hstop, List.append_nil, List.reverse_reverse]
  obtain ⟨cursor, indents, _, _, _, tokens⟩ := s
  obtain ⟨-, rfl, rfl, rfl, hindent, -⟩ := h
  refine ⟨stop, crossed, ?_, hresume⟩
  obtain ⟨is, rfl⟩ := List.head?_eq_some_iff.mp hindent
  have hmark : markKey ⟨⟨word ++ tail, line, column⟩, indent :: is, none, [], false, tokens⟩ =
      .ok ⟨⟨word ++ tail, line, column⟩, indent :: is, none, [], false, tokens⟩ := rfl
  rw [plainScalar, hmark]
  simp only [bind, Except.bind, inFlow, indent?, List.isEmpty_nil, Bool.not_true, List.head?_cons,
    Option.map_some, Option.getD_some, hplain]
  rfl

/-- A bare word behind a gap is the value, when the next content is no deeper
than the key. -/
theorem takes_plain {s : Scan} {indent : Nat} (h : s.AwaitsValue indent) {gap word tail : Text}
    {place : Cursor × Bool} (hgap : ∀ c ∈ gap, isBlank c = true)
    (hword : ∀ c ∈ word, isGap c = false) (hcolon : ':' ∉ word)
    (hopens : Scalar.opensBare word = true) (htail : atGap tail = true)
    (hplace : SamePlace (skipGap false false false s.cursor.line
      (s.cursor.column + gap.length + word.length) tail) place)
    (hshallow : place.1.rest = [] ∨ place.1.column ≤ indent)
    (htab : place.1.rest.head? ≠ some '\t') :
    Takes s (gap ++ (word ++ tail)) place [.scalar true word] := by
  have hsame : ∀ p : Cursor × Bool, SamePlace p place →
      (p.1.rest = [] ∨ p.1.column ≤ indent) ∧ p.1.rest.head? ≠ some '\t' := by
    rintro p (rfl | ⟨hend, -⟩)
    · exact ⟨hshallow, htab⟩
    · simp [hend]
  obtain ⟨hshallow', htab'⟩ := hsame _ hplace
  have hcolumn : s.cursor.column + gap.length ≠ 0 := by
    have hlt := h.indent_lt
    omega
  obtain ⟨stop, crossed, hscalar, hnext⟩ :=
    h.exists_plainScalar hword hcolon htail hcolumn hshallow' htab'
  obtain ⟨c, r, rfl, hsign⟩ := Scalar.exists_of_opensBare hopens
  let a : Scan :=
    { s with cursor := ⟨c :: (r ++ tail), s.cursor.line, s.cursor.column + gap.length⟩ }
  have happroach : (s.append (gap ++ (c :: r ++ tail))).approach = .ok a :=
    h.approach_append hgap (hword c (List.mem_cons_self ..)) hsign
  have hflow : a.inFlow = false := by simp [a, inFlow, h.outer]
  have hdispatch : a.dispatch c (r ++ tail) = a.plainScalar :=
    Scalar.dispatch_of_opensBare hflow hcolumn hword hopens tail
  have hstep : (s.append (gap ++ (c :: r ++ tail))).step? =
      some (s.behindScalar true (c :: r) stop crossed) := by
    have hrest : a.cursor.rest = c :: (r ++ tail) := rfl
    rw [step?, happroach]
    dsimp only
    rw [hrest]
    dsimp only
    rw [hdispatch]
    exact congrArg Except.toOption hscalar
  refine Takes.scalar hstep ?_
  rw [hnext]
  exact hplace

end Plain

end Scan

end Marginalia.Yaml
