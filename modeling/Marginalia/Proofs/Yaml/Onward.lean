import Marginalia.Proofs.Yaml.Surroundings

/-!
# Going on to the end of a document

`Scan.finish` is the same before and behind a token, and for two states from
which the reader comes to one place with one stack of open collections.  So a
long reading is followed by equations between the ends of the states that it
passes.
-/

namespace Marginalia.Yaml

open Source (atGap isBlank isBreak isGap)

namespace Scan

/-- The state in block style at a cursor, where no key has begun. -/
def inBlock (cursor : Cursor) (indents : List Nat) (keyAllowed : Bool) (tokens : List Token) :
    Scan :=
  ⟨cursor, indents, none, [], keyAllowed, tokens⟩

theorem finish_of_step? {s s' : Scan} (h : s.step? = some s') : s.finish = s'.finish := by
  obtain ⟨hrun, hlength⟩ := run_of_step? h s.cursor.rest.length
  rw [finish, hrun]
  exact run_eq_finish hlength

theorem finish_of_approach {s s' : Scan} (h : s.approach = s'.approach) : s.finish = s'.finish := by
  let n := s.cursor.rest.length + s'.cursor.rest.length
  have hs : run (n + 1) s = s.finish := run_eq_finish (by omega)
  have hs' : run (n + 1) s' = s'.finish := run_eq_finish (by omega)
  rw [← hs, ← hs', run, run, h]

theorem finish_of_dispatch {s a s' : Scan} {c : Char} {r : Text} (happroach : s.approach = .ok a)
    (hrest : a.cursor.rest = c :: r) (hdispatch : a.dispatch c r = .ok s') :
    s.finish = s'.finish := by
  apply finish_of_step?
  rw [step?, happroach]
  dsimp only
  rw [hrest]
  dsimp only
  rw [hdispatch]
  rfl

section InBlock

variable {cursor cursor' : Cursor} {indents : List Nat} {allowed allowed' : Bool}
  {tokens : List Token} {line column : Nat}

theorem approach_inBlock {place : Cursor × Bool}
    (hplace : skipGap false allowed false cursor.line cursor.column cursor.rest = place) :
    (inBlock cursor indents allowed tokens).approach =
      .ok (inBlock place.1 (closeIndents place.1.column indents tokens).1 place.2
        (closeIndents place.1.column indents tokens).2) := by
  subst hplace
  exact approach_of_candidate_eq_none rfl rfl

theorem closeIndents_of_le {column i : Nat} {is : List Nat} (h : i ≤ column) (tokens : List Token) :
    closeIndents column (i :: is) tokens = (i :: is, tokens) := by
  rw [closeIndents, if_neg (Nat.not_lt.mpr h)]

/-- Only the place that the gap leads to counts. -/
theorem finish_inBlock_of_samePlace
    (h : SamePlace (skipGap false allowed false cursor.line cursor.column cursor.rest)
      (skipGap false allowed' false cursor'.line cursor'.column cursor'.rest)) :
    (inBlock cursor indents allowed tokens).finish =
      (inBlock cursor' indents allowed' tokens).finish := by
  let n := cursor.rest.length + cursor'.rest.length
  have hs : run (n + 1) (inBlock cursor indents allowed tokens) = finish _ :=
    run_eq_finish (Nat.lt_succ_of_le (Nat.le_add_right _ _))
  have hs' : run (n + 1) (inBlock cursor' indents allowed' tokens) = finish _ :=
    run_eq_finish (Nat.lt_succ_of_le (Nat.le_add_left _ _))
  rw [← hs, ← hs']
  exact @run_of_samePlace (inBlock cursor indents allowed tokens)
    (inBlock cursor' indents allowed' tokens) rfl rfl rfl rfl rfl rfl h n

theorem finish_inBlock_of_skipGap
    (h : skipGap false allowed false cursor.line cursor.column cursor.rest =
      skipGap false allowed' false cursor'.line cursor'.column cursor'.rest) :
    (inBlock cursor indents allowed tokens).finish =
      (inBlock cursor' indents allowed' tokens).finish :=
  finish_inBlock_of_samePlace (Or.inl h)

theorem finish_inBlock_close {i : Nat}
    (h : (skipGap false allowed false cursor.line cursor.column cursor.rest).1.rest = [] ∨
      (skipGap false allowed false cursor.line cursor.column cursor.rest).1.column < i) :
    (inBlock cursor (i :: indents) allowed tokens).finish =
      (inBlock cursor indents allowed (.blockEnd :: tokens)).finish := by
  rcases h with hend | hlt
  · have hleft := run_of_rest_eq_nil (s := inBlock cursor (i :: indents) allowed tokens) rfl rfl
      hend cursor.rest.length
    have hright := run_of_rest_eq_nil (s := inBlock cursor indents allowed (.blockEnd :: tokens))
      rfl rfl hend cursor.rest.length
    refine hleft.trans (Eq.trans ?_ hright.symm)
    exact congrArg Except.ok (map_blockEnd_append_cons indents tokens).symm
  · apply finish_of_approach
    rw [approach_inBlock rfl, approach_inBlock rfl, closeIndents, if_pos hlt]

/-- A key that may have begun on an earlier line is forgotten. -/
theorem finish_of_candidate {k : KeyStart} (hrequired : k.required = false)
    (hover : k.line < (skipGap false allowed false cursor.line cursor.column cursor.rest).1.line ∨
      (skipGap false allowed false cursor.line cursor.column cursor.rest).1.rest = []) :
    finish { inBlock cursor indents allowed tokens with candidate := some k } =
      (inBlock cursor indents allowed tokens).finish := by
  let place := skipGap false allowed false cursor.line cursor.column cursor.rest
  let s : Scan := { inBlock cursor indents allowed tokens with candidate := some k }
  let kept (k' : Option KeyStart) : Scan :=
    { inBlock place.1 (closeIndents place.1.column indents tokens).1 place.2
        (closeIndents place.1.column indents tokens).2 with candidate := k' }
  have happroach : s.approach = refresh place.1 (some k) >>= fun k' => .ok (kept k') := by
    have hstale : s.skipped.dropStale = refresh place.1 (some k) >>= fun k' =>
        .ok { inBlock place.1 indents place.2 tokens with candidate := k' } := rfl
    rw [approach_eq, hstale]
    cases refresh place.1 (some k) <;> rfl
  by_cases hstale : k.line < place.1.line ∨ k.column + 1024 < place.1.column
  · apply finish_of_approach
    have hrefresh : refresh place.1 (some k) = .ok none := by
      rw [refresh, if_pos hstale, hrequired]
      rfl
    exact (happroach.trans (by rw [hrefresh]; rfl)).trans (approach_inBlock rfl).symm
  · have hend : place.1.rest = [] := hover.resolve_left fun h => hstale (Or.inl h)
    have hrefresh : refresh place.1 (some k) = .ok (some k) := by
      rw [refresh, if_neg hstale]
    have hforget : (kept (some k)).unrollAll.forgetKey = .ok (kept none).unrollAll := by
      have hkept : (kept (some k)).unrollAll.forgetKey =
          if k.required then .error .keyWithoutColon else .ok (kept none).unrollAll := rfl
      rw [hkept, hrequired]
      rfl
    have hleft : s.finish = .ok (kept none).unrollAll.tokens := by
      rw [finish, run, happroach, hrefresh]
      have hrest : (kept (some k)).cursor.rest = [] := hend
      simp only [Bind.bind, Except.bind, hrest, hforget]
      rfl
    have hright := run_of_rest_eq_nil (s := inBlock cursor indents allowed tokens) rfl rfl hend
      cursor.rest.length
    refine hleft.trans (Eq.trans ?_ hright.symm)
    exact congrArg Except.ok (closeIndents_blockEnd place.1.column indents tokens)

theorem skipGap_replicate (allowed : Bool) (width : Nat) (x : Text) :
    skipGap false allowed false line column (List.replicate width ' ' ++ x) =
      skipGap false allowed false line (column + width) x := by
  induction width generalizing column with
  | zero => rfl
  | succ width ih =>
      rw [List.replicate_succ, List.cons_append, skipGap_space, ih, Nat.add_assoc,
        Nat.add_comm 1 width]

theorem skipGap_indented {c : Char} {r : Text} (hc : isGap c = false) (hsign : c ≠ '#')
    (comment : Bool) {width : Nat} (hmark : width = 0 → c ≠ '\uFEFF') :
    skipGap false allowed comment line column ('\n' :: (List.replicate width ' ' ++ c :: r)) =
      (⟨c :: r, line + 1, width⟩, true) := by
  obtain ⟨hblank, hbreak⟩ := Bool.or_eq_false_iff.mp hc
  obtain ⟨hspace, htab⟩ := Bool.or_eq_false_iff.mp hblank
  rw [beq_eq_false_iff_ne] at hspace htab
  have hline : isBreak '\n' = true := rfl
  rw [skipGap, if_pos hline, Bool.not_false, Bool.or_true, skipGap_replicate, Nat.zero_add, skipGap]
  simp only [hbreak, Bool.false_eq_true, if_false, hspace, htab, hsign, false_and, or_self]
  rw [if_neg fun h => hmark h.1 h.2]

theorem finish_indented {c : Char} {r : Text} {width : Nat} (hc : isGap c = false) (hsign : c ≠ '#')
    (hwidth : width ≠ 0) :
    (inBlock ⟨'\n' :: (List.replicate width ' ' ++ c :: r), line, column⟩ indents allowed
        tokens).finish =
      (inBlock ⟨c :: r, line + 1, width⟩ indents true tokens).finish := by
  apply finish_inBlock_of_skipGap
  exact (skipGap_indented hc hsign false fun h => absurd h hwidth).trans
    (skipGap_of_isGap_eq_false hc hsign hwidth).symm

/-! ## Below a value -/

/-- A text that is a gap through its last line feed leads to the text below. -/
theorem exists_skipGap_lineFeed {comment : Bool} {above : Text}
    (h : (skipGap false allowed comment line column (above ++ ['\n'])).1.rest = [])
    (lines : Nat) (below : Text) :
    ∃ line', lines ≤ line' ∧
      skipGap false allowed comment lines column (above ++ '\n' :: below) =
        skipGap false true false (line' + 1) 0 below := by
  induction above generalizing allowed comment line column lines with
  | nil =>
      refine ⟨lines, Nat.le_refl lines, ?_⟩
      have hline : isBreak '\n' = true := rfl
      rw [List.nil_append, skipGap, if_pos hline, Bool.not_false, Bool.or_true]
  | cons c above ih =>
      rw [List.cons_append, skipGap] at h
      rw [List.cons_append, skipGap]
      split_ifs at h ⊢
      · obtain ⟨line', hle, hread⟩ := ih h (lines + 1)
        exact ⟨line', Nat.le_of_succ_le hle, hread⟩
      · exact ih h lines
      · exact ih h lines
      · exact ih h lines
      · exact ih h lines

theorem IsBelow.append_lineFeed {above : Text} (h : IsBelow (above ++ ['\n'])) (below : Text) :
    IsBelow (above ++ '\n' :: below) := by
  right
  cases above with
  | nil => exact ⟨below, rfl⟩
  | cons c above =>
      rcases h with hnil | ⟨r, hr⟩
      · cases hnil
      · obtain ⟨rfl, -⟩ := List.cons.inj hr
        exact ⟨_, rfl⟩

/-- A comment, and lines below it that are a gap, lead to the text below. -/
theorem exists_samePlace_above {note above : Text} (hnote : IsNote note)
    (hbelow : IsBelow (above ++ ['\n']))
    (h : (skipGap false false false 0 0 (above ++ ['\n'])).1.rest = []) (line column : Nat)
    (below : Text) :
    ∃ line', line ≤ line' ∧
      SamePlace (skipGap false false false line column (note ++ (above ++ '\n' :: below)))
        (skipGap false false false line' 0 ('\n' :: below)) := by
  obtain ⟨line', hle, hread⟩ := exists_skipGap_lineFeed h line below
  refine ⟨line', hle, ?_⟩
  have hplace := samePlace_note hnote (hbelow.append_lineFeed below) line column 0
  rw [hread] at hplace
  exact hplace

/-- What is read below a value does not depend on the lines above. -/
theorem finish_beneath {tail below : Text} (h : tail = [] ∧ below = [] ∨ tail = '\n' :: below) :
    (inBlock ⟨tail, line, column⟩ indents false tokens).finish =
      (inBlock ⟨below, 0, 0⟩ indents true []).finish.map (· ++ tokens) := by
  have hlift := finish_lift tokens (line + 1) (inBlock ⟨below, 0, 0⟩ indents true [])
  have hstate : (inBlock ⟨below, 0, 0⟩ indents true []).lift tokens (line + 1) =
      inBlock ⟨below, line + 1, 0⟩ indents true tokens := by
    simp [lift, inBlock, Cursor.down]
  rw [hstate] at hlift
  rw [← hlift]
  rcases h with ⟨rfl, rfl⟩ | rfl
  · exact finish_inBlock_of_samePlace (Or.inr ⟨rfl, rfl⟩)
  · exact finish_inBlock_of_skipGap rfl

end InBlock

end Scan

end Marginalia.Yaml
