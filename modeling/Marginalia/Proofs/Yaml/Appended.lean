import Marginalia.Proofs.Yaml.Lookahead

/-!
# A scan with more text behind it

The reader looks only a little ahead.  So when white space or nothing is put
behind a text, every token that ends before the end of the text is read as
before, and so is a key whose colon is the last character.  `Scan.through?` is
the state of the reader behind that colon; `run_append` says that the reading of
the longer text comes by there.
-/

namespace Marginalia.Yaml

open Source (atGap isGap isBlank isBreak)

namespace Scan

def append (s : Scan) (x : Text) : Scan :=
  { s with cursor := s.cursor.append x }

variable {x : Text} {s : Scan}

/-! ## One token more -/

theorem skipGap_append (x : Text) {flow allowed comment : Bool} {line column : Nat} {t : Text}
    (h : (skipGap flow allowed comment line column t).1.rest ≠ []) :
    skipGap flow allowed comment line column (t ++ x) =
      ((skipGap flow allowed comment line column t).1.append x,
        (skipGap flow allowed comment line column t).2) := by
  induction t generalizing allowed comment line column with
  | nil => exact absurd rfl h
  | cons c r ih =>
      rw [skipGap] at h
      rw [List.cons_append, skipGap, skipGap]
      split_ifs at h ⊢
      all_goals first
        | exact ih h
        | rfl

theorem take_append_of_le {width : Nat} (h : width ≤ s.cursor.rest.length) (t : Token) (x : Text) :
    (s.append x).take width t = (s.take width t).append x := by
  have hdrop : (s.cursor.rest ++ x).drop width = s.cursor.rest.drop width ++ x :=
    List.drop_append_of_le_length h
  simp only [take, push, append, Cursor.skip, Cursor.append, hdrop]

theorem take_append {width : Nat} {t : Token} (h : (s.take width t).cursor.rest ≠ []) (x : Text) :
    (s.append x).take width t = (s.take width t).append x := by
  apply take_append_of_le
  by_contra hle
  exact h (List.drop_eq_nil_of_le (by omega))

theorem forgetKey_append (s : Scan) (x : Text) :
    (s.append x).forgetKey = s.forgetKey.map (·.append x) := by
  unfold forgetKey append
  split <;> rfl

theorem markKey_append (s : Scan) (x : Text) :
    (s.append x).markKey = s.markKey.map (·.append x) := by
  have hforget := forgetKey_append s x
  have hallowed : (s.append x).keyAllowed = s.keyAllowed := rfl
  unfold markKey
  rw [hallowed, hforget]
  split
  · rfl
  · cases s.forgetKey <;> rfl

theorem roll_append (s : Scan) (column n : Nat) (t : Token) (x : Text) :
    (s.append x).roll column n t = (s.roll column n t).append x := by
  have hflow : (s.append x).inFlow = s.inFlow := rfl
  have hindent : (s.append x).indent? = s.indent? := rfl
  unfold roll
  rw [hflow, hindent]
  dsimp only
  split_ifs <;> rfl

theorem unrollAll_append (s : Scan) (x : Text) :
    (s.append x).unrollAll = s.unrollAll.append x := by
  have hflow : (s.append x).inFlow = s.inFlow := rfl
  unfold unrollAll
  rw [hflow]
  split_ifs <;> rfl

theorem unroll_append (s : Scan) (column : Nat) (x : Text) :
    (s.append x).unroll column = (s.unroll column).append x := by
  have hflow : (s.append x).inFlow = s.inFlow := rfl
  unfold unroll
  rw [hflow]
  split_ifs <;> rfl

theorem ensures_forgetKey (s : Scan) :
    Ensures (fun s' => ∃ k, s' = { s with candidate := k }) s.forgetKey := by
  unfold forgetKey
  exact Ensures.ite (fun _ => Ensures.error _) (Ensures.ok ⟨none, rfl⟩)

theorem ensures_markKey (s : Scan) :
    Ensures (fun s' => ∃ k, s' = { s with candidate := k }) s.markKey := by
  unfold markKey
  refine Ensures.ite (fun _ => Ensures.ok ⟨s.candidate, rfl⟩) ?_
  refine Ensures.bind (ensures_forgetKey s) ?_
  rintro _ ⟨k, rfl⟩
  exact Ensures.ok ⟨_, rfl⟩

section Dispatch

variable (hx : atGap x = true)

theorem marker_append (t : Token) :
    Carries (·.cursor.rest) (·.append x) (s.marker t) ((s.append x).marker t) := by
  have hend : (s.append x).endBlocks = s.endBlocks.map (·.append x) := by
    unfold endBlocks
    rw [unrollAll_append, forgetKey_append]
    cases s.unrollAll.forgetKey <;> rfl
  refine Carries.bind hend fun s' _ => Carries.ok fun h => ?_
  exact take_append h x

theorem openFlow_append (t : Token) :
    Carries (·.cursor.rest) (·.append x) (s.openFlow t) ((s.append x).openFlow t) := by
  refine Carries.bind (markKey_append s x) fun s' _ => Carries.ok fun h => ?_
  rw [take_append h]
  rfl

theorem closeFlow_append (t : Token) :
    Carries (·.cursor.rest) (·.append x) (s.closeFlow t) ((s.append x).closeFlow t) := by
  refine Carries.bind (forgetKey_append s x) fun s' _ => Carries.ok fun h => ?_
  obtain ⟨cursor, indents, candidate, outer, keyAllowed, tokens⟩ := s'
  cases outer with
  | nil =>
      have htake :=
        take_append (s := ⟨cursor, indents, candidate, [], keyAllowed, tokens⟩) (t := t) h x
      exact congrArg (fun s : Scan => { s with keyAllowed := false }) htake
  | cons k ks =>
      have htake := take_append (s := ⟨cursor, indents, k, ks, keyAllowed, tokens⟩) (t := t) h x
      exact congrArg (fun s : Scan => { s with keyAllowed := false }) htake

theorem comma_append :
    Carries (·.cursor.rest) (·.append x) s.comma ((s.append x).comma) := by
  refine Carries.bind (forgetKey_append s x) fun s' _ => Carries.ok fun h => ?_
  rw [take_append h]
  rfl

theorem opening_append (start t : Token) (allowed : Scan → Bool)
    (hallowed : ∀ s : Scan, allowed (s.append x) = allowed s) (column n : Nat) :
    Carries (·.cursor.rest) (·.append x)
      (do
        let s ← (s.roll column n start).forgetKey
        return { s.take 1 t with keyAllowed := allowed s })
      (do
        let s ← ((s.append x).roll column n start).forgetKey
        return { s.take 1 t with keyAllowed := allowed s }) := by
  rw [roll_append]
  refine Carries.bind (forgetKey_append _ x) fun s' _ => Carries.ok fun h => ?_
  rw [take_append h, hallowed]
  rfl

theorem dash_append :
    Carries (·.cursor.rest) (·.append x) s.dash ((s.append x).dash) := by
  have hopen := opening_append (x := x) (s := s) .blockSequenceStart .blockEntry (fun _ => true)
    (fun _ => rfl) s.cursor.column s.tokens.length
  exact Carries.ite (fun _ => Carries.error _) fun _ => hopen

theorem explicitKey_append :
    Carries (·.cursor.rest) (·.append x) s.explicitKey ((s.append x).explicitKey) := by
  have hopen := opening_append (x := x) (s := s) .blockMappingStart .key (fun s => !s.inFlow)
    (fun _ => rfl) s.cursor.column s.tokens.length
  exact Carries.ite (fun _ => Carries.error _) fun _ => hopen

theorem colon_append (hne : s.cursor.rest ≠ []) :
    (s.append x).colon = s.colon.map (·.append x) := by
  have hone : 1 ≤ s.cursor.rest.length := List.length_pos_of_ne_nil hne
  have hcandidate : (s.append x).candidate = s.candidate := rfl
  unfold colon
  rw [hcandidate]
  cases s.candidate with
  | some k =>
      have hpush : (s.append x).pushAt k.tokens .key = (s.pushAt k.tokens .key).append x := rfl
      have hlength : 1 ≤ ((s.pushAt k.tokens .key).roll k.column k.tokens
          .blockMappingStart).cursor.rest.length := by
        rw [cursor_roll]
        exact hone
      dsimp only
      rw [hpush, roll_append, take_append_of_le hlength]
      rfl
  | none =>
      have hroll : (s.append x).roll (s.append x).cursor.column (s.append x).tokens.length
          .blockMappingStart =
            (s.roll s.cursor.column s.tokens.length .blockMappingStart).append x :=
        roll_append s s.cursor.column s.tokens.length .blockMappingStart x
      have hlength : 1 ≤ (s.roll s.cursor.column s.tokens.length
          .blockMappingStart).cursor.rest.length := by
        rw [cursor_roll]
        exact hone
      have hindicator : (!(s.append x).inFlow && !(s.append x).keyAllowed) =
          (!s.inFlow && !s.keyAllowed) := rfl
      dsimp only
      rw [hindicator, hroll, take_append_of_le hlength]
      split <;> rfl

variable {c : Char} {r : Text} (hrest : s.cursor.rest = c :: r)

include hx hrest

theorem name_append (t : Text → Token) :
    Carries (·.cursor.rest) (·.append x) (s.name t) ((s.append x).name t) := by
  refine Carries.bind (markKey_append s x) fun s' hs' => ?_
  obtain ⟨k, rfl⟩ := ensures_markKey s s' hs'
  have hname : Token.anchorName ((s.append x).cursor.rest.drop 1) =
      Token.anchorName (s.cursor.rest.drop 1) := by
    simpa [append, Cursor.append, hrest] using Token.anchorName_append hx r
  refine Carries.bind_eq hname fun n _ => Carries.ok fun h => ?_
  rw [take_append h]
  rfl

theorem tag_append :
    Carries (·.cursor.rest) (·.append x) s.tag ((s.append x).tag) := by
  refine Carries.bind (markKey_append s x) fun s' hs' => ?_
  obtain ⟨k, rfl⟩ := ensures_markKey s s' hs'
  have htag : Token.tagAt s.inFlow (s.append x).cursor.rest =
      Token.tagAt s.inFlow s.cursor.rest := by
    simpa [append, Cursor.append, hrest] using Token.tagAt_append hx s.inFlow c r
  refine Carries.bind_eq htag fun p _ => Carries.ok fun h => ?_
  rw [take_append h]
  rfl

theorem blockScalar_append (folded : Bool) :
    Carries (·.cursor.rest) (·.append x) (s.blockScalar folded)
      ((s.append x).blockScalar folded) := by
  refine Carries.bind (forgetKey_append s x) fun s' hs' => ?_
  obtain ⟨k, rfl⟩ := ensures_forgetKey s s' hs'
  have hne : s.cursor.rest ≠ [] := by simp [hrest]
  refine Carries.bind_of_left (Token.block_append_of_stop hx folded s.indent? hne) ?_ ?_
  · intro p a ha h
    obtain rfl := Except.ok.inj ha
    exact h
  · intro p _
    exact Carries.ok fun _ => rfl

theorem quotedScalar_append (double : Bool) :
    Carries (·.cursor.rest) (·.append x) (s.quotedScalar double)
      ((s.append x).quotedScalar double) := by
  refine Carries.bind (markKey_append s x) fun s' hs' => ?_
  obtain ⟨k, rfl⟩ := ensures_markKey s s' hs'
  have hne : s.cursor.rest ≠ [] := by simp [hrest]
  refine Carries.bind_of_left (Token.quoted_append_of_stop hx double hne) ?_ ?_
  · intro p a ha h
    obtain rfl := Except.ok.inj ha
    exact h
  · intro p _
    exact Carries.ok fun _ => rfl

omit hrest in
theorem plainScalar_append :
    Carries (·.cursor.rest) (·.append x) s.plainScalar ((s.append x).plainScalar) := by
  refine Carries.bind (markKey_append s x) fun s' hs' => ?_
  obtain ⟨k, rfl⟩ := ensures_markKey s s' hs'
  refine Carries.bind_of_left (Token.plainFrom_append_of_stop hx _ _ _ _ _ _ _) ?_ ?_
  · intro p a ha h
    obtain rfl := Except.ok.inj ha
    exact h
  · intro p _
    exact Carries.ok fun _ => rfl

omit hrest in
theorem startsPlain_append (flow : Bool) (hdash : ¬(c = '-' ∧ atGap r = true)) :
    startsPlain flow c (r ++ x) = startsPlain flow c r := by
  have hblank : (c == '-' && !(((r ++ x).head?.map isBlank).getD false)) =
      (c == '-' && !((r.head?.map isBlank).getD false)) := by
    cases r with
    | cons d r => rfl
    | nil =>
        have hc : (c == '-') = false := beq_eq_false_iff_ne.mpr fun hc => hdash ⟨hc, rfl⟩
        rw [hc, Bool.false_and, Bool.false_and]
  rw [startsPlain, startsPlain, hblank, Source.atGap_append hx]

/-- Every token but a directive is read as before while text is left behind
it. -/
theorem dispatch_append (hdirective : ¬(s.cursor.column = 0 ∧ c = '%')) :
    Carries (·.cursor.rest) (·.append x) (s.dispatch c r) ((s.append x).dispatch c (r ++ x)) := by
  have hmarker : Source.atMarker (c :: (r ++ x)) = Source.atMarker (c :: r) :=
    Source.atMarker_append hx (c :: r)
  have hgap := Source.atGap_append hx r
  have hflow : (s.append x).inFlow = s.inFlow := rfl
  have hcolumn : (s.append x).cursor.column = s.cursor.column := rfl
  unfold dispatch
  rw [hflow, hcolumn, hmarker, hgap]
  dsimp only
  rw [if_neg hdirective, if_neg hdirective]
  refine Carries.ite (fun _ => marker_append _) fun _ => ?_
  refine Carries.ite (fun _ => openFlow_append _) fun _ => ?_
  refine Carries.ite (fun _ => openFlow_append _) fun _ => ?_
  refine Carries.ite (fun _ => closeFlow_append _) fun _ => ?_
  refine Carries.ite (fun _ => closeFlow_append _) fun _ => ?_
  refine Carries.ite (fun _ => comma_append) fun _ => ?_
  refine Carries.ite (fun _ => dash_append) fun hdash => ?_
  refine Carries.ite (fun _ => explicitKey_append) fun _ => ?_
  refine Carries.ite (fun _ => ?_) fun _ => ?_
  · have hne : s.cursor.rest ≠ [] := by simp [hrest]
    intro s' hs' _
    rw [colon_append hne, hs']
    rfl
  refine Carries.ite (fun _ => name_append hx hrest _) fun _ => ?_
  refine Carries.ite (fun _ => name_append hx hrest _) fun _ => ?_
  refine Carries.ite (fun _ => tag_append hx hrest) fun _ => ?_
  refine Carries.ite (fun _ => blockScalar_append hx hrest _) fun _ => ?_
  refine Carries.ite (fun _ => blockScalar_append hx hrest _) fun _ => ?_
  refine Carries.ite (fun _ => quotedScalar_append hx hrest _) fun _ => ?_
  refine Carries.ite (fun _ => quotedScalar_append hx hrest _) fun _ => ?_
  rw [startsPlain_append hx _ hdash]
  exact Carries.ite (fun _ => plainScalar_append hx) fun _ => Carries.error _

end Dispatch

/-! ## Up to a colon -/

theorem dropStale_append (s : Scan) (x : Text) :
    (s.append x).dropStale = s.dropStale.map (·.append x) := by
  have hrefresh : refresh (s.cursor.append x) = refresh s.cursor := rfl
  have hcursor : (s.append x).cursor = s.cursor.append x := rfl
  have houter : (s.append x).outer = s.outer := rfl
  have hcandidate : (s.append x).candidate = s.candidate := rfl
  unfold dropStale
  rw [hcursor, houter, hcandidate, hrefresh]
  cases refresh s.cursor s.candidate with
  | error e => rfl
  | ok candidate => cases s.outer.mapM (refresh s.cursor) <;> rfl

/-- The place of the next token, and whether a key may begin there. -/
def next (s : Scan) : Cursor × Bool :=
  skipGap s.inFlow s.keyAllowed false s.cursor.line s.cursor.column s.cursor.rest

/-- The state with the cursor at the next token. -/
def skipped (s : Scan) : Scan :=
  { s with cursor := s.next.1, keyAllowed := s.next.2 }

theorem approach_eq (s : Scan) :
    s.approach = s.skipped.dropStale >>= fun s' => .ok (s'.unroll s.next.1.column) := rfl

theorem cursor_unroll (s : Scan) (column : Nat) : (s.unroll column).cursor = s.cursor := by
  unfold unroll
  split_ifs <;> rfl

theorem ensures_dropStale (s : Scan) :
    Ensures (fun s' => ∃ candidate outer, s' = { s with candidate, outer }) s.dropStale := by
  unfold dropStale
  refine Ensures.bind (P := fun _ => True) (fun _ _ => trivial) fun candidate _ => ?_
  refine Ensures.bind (P := fun _ => True) (fun _ _ => trivial) fun outer _ => ?_
  exact Ensures.ok ⟨candidate, outer, rfl⟩

theorem ensures_approach (s : Scan) : Ensures (fun s' => s'.cursor = s.next.1) s.approach := by
  rw [approach_eq]
  refine Ensures.bind (ensures_dropStale _) ?_
  rintro _ ⟨candidate, outer, rfl⟩
  apply Ensures.ok
  rw [cursor_unroll]
  rfl

theorem approach_append (s : Scan) (x : Text) :
    Carries (·.cursor.rest) (·.append x) s.approach (s.append x).approach := by
  intro s' hs' hne
  rw [approach_eq] at hs' ⊢
  cases hstale : s.skipped.dropStale with
  | error e => simp [hstale, bind, Except.bind] at hs'
  | ok a =>
      rw [hstale] at hs'
      obtain rfl : a.unroll s.next.1.column = s' := Except.ok.inj hs'
      obtain ⟨candidate, outer, rfl⟩ := ensures_dropStale s.skipped a hstale
      dsimp only at hne
      rw [cursor_unroll] at hne
      have hnext : (s.append x).next = (s.next.1.append x, s.next.2) := skipGap_append x hne
      have hskipped : (s.append x).skipped = s.skipped.append x := by
        rw [skipped, hnext]
        rfl
      have hcolumn : (s.append x).next.1.column = s.next.1.column := by rw [hnext]; rfl
      rw [hskipped, dropStale_append, hstale, hcolumn]
      exact congrArg Except.ok (unroll_append _ _ x)

/-- The state behind a colon that ends the text and is a key's; none when the
colon is read as something else, or when the text holds a directive. -/
def through? : Nat → Scan → Option Scan
  | 0, _ => none
  | fuel + 1, s =>
    match s.approach with
    | .error _ => none
    | .ok s =>
      match s.cursor.rest with
      | [] => none
      | [':'] => s.colon.toOption
      | c :: r =>
        if s.cursor.column = 0 ∧ c = '%' then none
        else
          match s.dispatch c r with
          | .error _ => none
          | .ok s => through? fuel s

theorem rest_ne_nil_of_through? {n : Nat} {s s' : Scan} (h : through? n s = some s') :
    s.cursor.rest ≠ [] := by
  intro hnil
  cases n with
  | zero => simp [through?] at h
  | succ n =>
      rw [through?] at h
      cases happroach : s.approach with
      | error e => simp [happroach] at h
      | ok a =>
          have hcursor := ensures_approach s a happroach
          have hrest : a.cursor.rest = [] := by
            rw [hcursor, next, hnil]
            rfl
          simp [happroach, hrest] at h

theorem dispatch_colon (s : Scan) {r : Text} (hr : atGap r = true) :
    s.dispatch ':' r = s.colon := by
  have hmarker : Source.atMarker (':' :: r) = false := rfl
  unfold dispatch
  simp [hmarker, hr]

/-- The reading of a longer text comes by behind the colon. -/
theorem run_append {n : Nat} {s s' : Scan} (h : through? n s = some s') :
    ∃ k ≤ n, ∀ x, atGap x = true →
      ∀ fuel, run (fuel + k) (s.append x) = run fuel (s'.append x) := by
  induction n generalizing s with
  | zero => simp [through?] at h
  | succ n ih =>
      rw [through?] at h
      cases happroach : s.approach with
      | error e => simp [happroach] at h
      | ok a =>
          simp only [happroach] at h
          split at h
          · cases h
          · next hrest =>
              have hne : a.cursor.rest ≠ [] := by simp [hrest]
              cases hcolon : a.colon with
              | error e => simp [hcolon, Except.toOption] at h
              | ok b =>
                  obtain rfl : b = s' := by simpa [hcolon, Except.toOption] using h
                  refine ⟨1, by omega, fun x hx fuel => ?_⟩
                  have hlong := approach_append s x a happroach hne
                  have hcursor : (a.append x).cursor.rest = ':' :: x := by
                    simp [append, Cursor.append, hrest]
                  rw [run_eq_dispatch hlong hcursor, dispatch_colon _ hx, colon_append hne, hcolon]
                  rfl
          · next c r _ hrest =>
              have hne : a.cursor.rest ≠ [] := by simp [hrest]
              split at h
              · cases h
              · next hdirective =>
                  cases hdispatch : a.dispatch c r with
                  | error e => simp [hdispatch] at h
                  | ok b =>
                      simp only [hdispatch] at h
                      obtain ⟨k, hk, hrun⟩ := ih h
                      refine ⟨k + 1, by omega, fun x hx fuel => ?_⟩
                      have hlong := approach_append s x a happroach hne
                      have hcursor : (a.append x).cursor.rest = c :: (r ++ x) := by
                        simp [append, Cursor.append, hrest]
                      have hnext := dispatch_append hx hrest hdirective b hdispatch
                        (rest_ne_nil_of_through? h)
                      rw [← Nat.add_assoc, run_eq_dispatch hlong hcursor, hnext]
                      exact hrun x hx fuel

end Scan

end Marginalia.Yaml
