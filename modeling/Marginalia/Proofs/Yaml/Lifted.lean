import Marginalia.Proofs.Yaml.Appended

/-!
# A scan behind other tokens

What the reader does next depends on the text that is left, on the open
collections and on the places at which a key may have begun, and neither on the
tokens that it has read nor on the number of the line.  So a scan that starts
behind other tokens and below other lines reads the same tokens: `run_lift`.
And it needs no more steps than there are characters left:
`run_eq_of_length_lt`.
-/

namespace Marginalia.Yaml

open Source (atGap)

/-- The place with more lines above it. -/
def Cursor.down (lines : Nat) (c : Cursor) : Cursor :=
  { c with line := c.line + lines }

/-- The place with `n` more tokens before it and more lines above it. -/
def KeyStart.lift (n lines : Nat) (k : KeyStart) : KeyStart :=
  { k with tokens := k.tokens + n, line := k.line + lines }

namespace Token

theorem length_plainFrom_stop_le (flow : Bool) (indent : Nat) (out : Text) (gap : Gap)
    (line column : Nat) (t : Text) :
    Ensures (fun p => p.stop.rest.length ≤ t.length)
      (plainFrom flow indent out gap line column t) := by
  induction t generalizing out gap line column with
  | nil => exact Ensures.ok (Nat.le_refl _)
  | cons c r ih =>
      have hnext : ∀ out gap line column, Ensures (fun p => p.stop.rest.length ≤ (c :: r).length)
          (plainFrom flow indent out gap line column r) := fun _ _ _ _ =>
        (ih _ _ _ _).mono fun _ hp => hp.trans (Nat.le_succ _)
      have hstop : Ensures (fun p => p.stop.rest.length ≤ (c :: r).length)
          (.ok (⟨out.reverse, ⟨c :: r, line, column⟩, gap.hasBreak⟩ : PlainScalar)) :=
        Ensures.ok (Nat.le_refl _)
      rw [plainFrom]
      refine Ensures.ite (fun _ => ?_) (Ensures.ite (fun _ => hnext _ _ _ _) ?_)
      · exact Ensures.ite (fun _ => Ensures.error _) (hnext _ _ _ _)
      refine Ensures.ite (fun _ => hstop) (Ensures.ite (fun _ => hstop) ?_)
      refine Ensures.ite (fun _ => hstop) (Ensures.ite (fun _ => Ensures.error _) ?_)
      exact Ensures.ite (fun _ => hstop) (Ensures.ite (fun _ => hstop) (hnext _ _ _ _))

/-- A plain scalar has a character where it starts. -/
theorem length_plain_stop_le {flow : Bool} {indent : Nat} {cursor : Cursor} {c : Char} {r : Text}
    (hrest : cursor.rest = c :: r)
    (hmarker : ¬(cursor.column = 0 ∧ Source.atMarker (c :: r) = true))
    (hstarts : Scan.startsPlain flow c r = true) :
    Ensures (fun p => p.stop.rest.length ≤ r.length) (plain flow indent cursor) := by
  have hnext : ∀ out gap line column, Ensures (fun p => p.stop.rest.length ≤ r.length)
      (plainFrom flow indent out gap line column r) := fun out gap line column =>
    length_plainFrom_stop_le flow indent out gap line column r
  have hfirst : ¬(Gap.empty ≠ .empty) := fun h => h rfl
  have hcolon : ¬(c = ':' ∧ atGap r = true) := by
    rintro ⟨rfl, hr⟩
    have hindicator : Scan.isIndicator ':' = true := by decide
    simp [Scan.startsPlain, hindicator, hr] at hstarts
  have hindicator : ¬(flow = true ∧ isFlowIndicator c = true) := by
    rintro ⟨rfl, hc⟩
    simp only [isFlowIndicator, Bool.or_eq_true, beq_iff_eq, or_assoc] at hc
    rcases hc with rfl | rfl | rfl | rfl | rfl <;>
      simp [Scan.startsPlain, Scan.isIndicator] at hstarts
  rw [plain, hrest, plainFrom]
  refine Ensures.ite (fun _ => Ensures.ite (fun _ => Ensures.error _) (hnext _ _ _ _)) ?_
  refine Ensures.ite (fun _ => hnext _ _ _ _) ?_
  rw [if_neg (fun h => hfirst h.1), if_neg hmarker, if_neg (fun h => hfirst h.1)]
  refine Ensures.ite (fun _ => Ensures.error _) ?_
  rw [if_neg hcolon, if_neg hindicator]
  exact hnext _ _ _ _

/-! ## More lines above -/

theorem map_ite {ε α β : Type} {p : Prop} [Decidable p] (x y : Except ε α) (f : α → β) :
    (if p then x else y).map f = if p then x.map f else y.map f := by
  split <;> rfl

theorem plainFrom_down (flow : Bool) (indent : Nat) (out : Text) (gap : Gap)
    (lines line column : Nat) (t : Text) :
    plainFrom flow indent out gap (line + lines) column t =
      (plainFrom flow indent out gap line column t).map
        fun p => { p with stop := p.stop.down lines } := by
  induction t generalizing out gap line column with
  | nil => rfl
  | cons c r ih =>
      rw [plainFrom, plainFrom, Nat.add_right_comm line lines 1]
      simp only [map_ite, ih]
      rfl

theorem quotedFrom_down (double : Bool) (q : QuotedState) (lines line column : Nat) (t : Text) :
    quotedFrom double q (line + lines) column t =
      (quotedFrom double q line column t).map fun p => (p.1, p.2.down lines) := by
  induction t generalizing q line column with
  | nil => rfl
  | cons c r ih =>
      rw [quotedFrom, quotedFrom, Nat.add_right_comm line lines 1]
      cases hescape : escape? r with
      | none =>
          simp only [map_ite, ih]
          rfl
      | some e =>
          simp only [map_ite, ih]
          rfl

theorem blockFrom_down (folded : Bool) (chomping : Chomping) (least : Nat) (s : BlockState)
    (lines line column : Nat) (t : Text) :
    blockFrom folded chomping least s (line + lines) column t =
      (blockFrom folded chomping least s line column t).map fun p => (p.1, p.2.down lines) := by
  induction t generalizing s line column with
  | nil => rfl
  | cons c r ih =>
      rw [blockFrom, blockFrom, Nat.add_right_comm line lines 1]
      simp only [map_ite, ih]
      rfl

theorem block_down (folded : Bool) (parent : Option Nat) (lines : Nat) (c : Cursor) :
    block folded parent (c.down lines) =
      (block folded parent c).map fun p => (p.1, p.2.down lines) := by
  have hrest : (c.down lines).rest = c.rest := rfl
  have hline : (c.down lines).line = c.line + lines := rfl
  have hcolumn : (c.down lines).column = c.column := rfl
  unfold block
  rw [hrest, hline, hcolumn]
  dsimp only
  split
  · exact blockFrom_down _ _ _ _ _ _ _ _
  · rw [Nat.add_right_comm c.line lines 1, map_ite, blockFrom_down]
    rfl

end Token

namespace Scan

/-- The state with the tokens `base`, which are in reverse, before all others,
and more lines above it. -/
def lift (base : List Token) (lines : Nat) (s : Scan) : Scan :=
  { s with
    cursor := s.cursor.down lines
    candidate := s.candidate.map (·.lift base.length lines)
    outer := s.outer.map (Option.map (·.lift base.length lines))
    tokens := s.tokens ++ base }

/-- One reading gives what another one gives, behind the tokens `base` and below
other lines. -/
def Lifts (base : List Token) (lines : Nat) (x y : Except Error Scan) : Prop :=
  y = x.map (·.lift base lines)

namespace Lifts

variable {base : List Token} {lines : Nat} {x y x' y' : Except Error Scan}

theorem ok (s : Scan) : Lifts base lines (.ok s) (.ok (s.lift base lines)) := rfl

theorem error (e : Error) : Lifts base lines (.error e) (.error e) := rfl

theorem ite {p : Prop} [Decidable p] (h : Lifts base lines x y) (h' : Lifts base lines x' y') :
    Lifts base lines (if p then x else x') (if p then y else y') := by
  split
  · exact h
  · exact h'

theorem bind {f g : Scan → Except Error Scan} (hx : Lifts base lines x y)
    (h : ∀ s, x = .ok s → Lifts base lines (f s) (g (s.lift base lines))) :
    Lifts base lines (x >>= f) (y >>= g) := by
  rw [Lifts] at hx
  subst hx
  cases hs : x with
  | error e => rfl
  | ok s => exact h s hs

theorem bind_map {α : Type} {m m' : Except Error α} {next : α → α}
    {f g : α → Except Error Scan} (hm : m' = m.map next)
    (h : ∀ a, Lifts base lines (f a) (g (next a))) : Lifts base lines (m >>= f) (m' >>= g) := by
  subst hm
  cases m with
  | error e => rfl
  | ok a => exact h a

theorem bind_same {α : Type} {m : Except Error α} {f g : α → Except Error Scan}
    (h : ∀ a, Lifts base lines (f a) (g a)) : Lifts base lines (m >>= f) (m >>= g) := by
  cases m with
  | error e => rfl
  | ok a => exact h a

end Lifts

variable (base : List Token) (lines : Nat) (s : Scan)

/-! ## The state -/

theorem inFlow_lift : (s.lift base lines).inFlow = s.inFlow := by
  simp [inFlow, lift]

theorem pushAt_lift (n : Nat) (t : Token) :
    (s.lift base lines).pushAt (n + base.length) t = (s.pushAt n t).lift base lines := by
  have hplace : (s.tokens ++ base).length - (n + base.length) = s.tokens.length - n := by
    rw [List.length_append]
    omega
  have hinsert := insertIdx_append_of_le (Nat.sub_le s.tokens.length n) base t
  simp only [pushAt, lift, hplace, hinsert]

theorem roll_lift (column n : Nat) (t : Token) :
    (s.lift base lines).roll column (n + base.length) t = (s.roll column n t).lift base lines := by
  have hindent : (s.lift base lines).indent? = s.indent? := rfl
  unfold roll
  rw [inFlow_lift, hindent, pushAt_lift]
  dsimp only
  split_ifs <;> rfl

theorem length_tokens_lift : (s.lift base lines).tokens.length = s.tokens.length + base.length :=
  List.length_append

theorem closeIndents_append (column : Nat) (indents : List Nat) (tokens : List Token) :
    closeIndents column indents (tokens ++ base) =
      ((closeIndents column indents tokens).1, (closeIndents column indents tokens).2 ++ base) := by
  induction indents generalizing tokens with
  | nil => rfl
  | cons i indents ih =>
      rw [closeIndents, closeIndents]
      split
      · exact ih (.blockEnd :: tokens)
      · rfl

theorem unroll_lift (column : Nat) :
    (s.lift base lines).unroll column = (s.unroll column).lift base lines := by
  have hindents : (s.lift base lines).indents = s.indents := rfl
  have htokens : (s.lift base lines).tokens = s.tokens ++ base := rfl
  unfold unroll
  rw [inFlow_lift, hindents, htokens, closeIndents_append]
  split_ifs <;> rfl

theorem unrollAll_lift : (s.lift base lines).unrollAll = s.unrollAll.lift base lines := by
  unfold unrollAll
  rw [inFlow_lift]
  split_ifs
  · rfl
  · simp only [lift, List.append_assoc]

theorem lifts_forgetKey : Lifts base lines s.forgetKey (s.lift base lines).forgetKey := by
  have hrequired : (s.lift base lines).candidate.map (·.required) =
      s.candidate.map (·.required) := by
    simp only [lift, Option.map_map]
    rfl
  unfold forgetKey
  rw [hrequired]
  exact Lifts.ite (Lifts.error _) (Lifts.ok _)

theorem lifts_markKey : Lifts base lines s.markKey (s.lift base lines).markKey := by
  have hallowed : (s.lift base lines).keyAllowed = s.keyAllowed := rfl
  unfold markKey
  rw [hallowed, inFlow_lift]
  refine Lifts.ite (Lifts.ok s) (Lifts.bind (lifts_forgetKey base lines s) fun s' _ => ?_)
  have hlength := length_tokens_lift base lines s'
  simp only [hlength]
  exact Lifts.ok _

theorem refresh_lift (c : Cursor) (n lines : Nat) (k : Option KeyStart) :
    refresh (c.down lines) (k.map (·.lift n lines)) =
      (refresh c k).map (Option.map (·.lift n lines)) := by
  cases k with
  | none => rfl
  | some k =>
      simp only [refresh, Option.map_some, KeyStart.lift, Cursor.down, Nat.add_lt_add_iff_right]
      split_ifs <;> rfl

theorem mapM_refresh_lift (c : Cursor) (n lines : Nat) (ks : List (Option KeyStart)) :
    (ks.map (Option.map (·.lift n lines))).mapM (refresh (c.down lines)) =
      (ks.mapM (refresh c)).map (List.map (Option.map (·.lift n lines))) := by
  induction ks with
  | nil => rfl
  | cons k ks ih =>
      rw [List.map_cons, List.mapM_cons, List.mapM_cons, refresh_lift, ih]
      cases refresh c k with
      | error e => rfl
      | ok k' => cases ks.mapM (refresh c) <;> rfl

theorem lifts_dropStale : Lifts base lines s.dropStale (s.lift base lines).dropStale := by
  have hcandidate : (s.lift base lines).candidate =
      s.candidate.map (·.lift base.length lines) := rfl
  have houter : (s.lift base lines).outer =
      s.outer.map (Option.map (·.lift base.length lines)) := rfl
  have hcursor : (s.lift base lines).cursor = s.cursor.down lines := rfl
  unfold dropStale
  rw [hcursor, hcandidate, houter, refresh_lift, mapM_refresh_lift]
  cases refresh s.cursor s.candidate with
  | error e => rfl
  | ok candidate => cases s.outer.mapM (refresh s.cursor) <;> rfl

theorem skipGap_down (flow allowed comment : Bool) (line column : Nat) (t : Text) :
    skipGap flow allowed comment (line + lines) column t =
      ((skipGap flow allowed comment line column t).1.down lines,
        (skipGap flow allowed comment line column t).2) := by
  induction t generalizing allowed comment line column with
  | nil => rfl
  | cons c r ih =>
      rw [skipGap, skipGap, Nat.add_right_comm line lines 1]
      split_ifs <;> first | exact ih _ _ _ _ | rfl

theorem next_lift : (s.lift base lines).next = (s.next.1.down lines, s.next.2) := by
  rw [next, next, inFlow_lift]
  exact skipGap_down lines _ _ _ _ _ _

theorem lifts_approach : Lifts base lines s.approach (s.lift base lines).approach := by
  have hskipped : (s.lift base lines).skipped = s.skipped.lift base lines := by
    rw [skipped, next_lift]
    rfl
  have hcolumn : (s.next.1.down lines).column = s.next.1.column := rfl
  rw [approach_eq, approach_eq, hskipped, next_lift, hcolumn]
  refine Lifts.bind (lifts_dropStale base lines s.skipped) fun s' _ => ?_
  rw [unroll_lift]
  exact Lifts.ok _

/-! ## One token more -/

theorem lifts_endBlocks : Lifts base lines s.endBlocks (s.lift base lines).endBlocks := by
  unfold endBlocks
  rw [unrollAll_lift]
  exact Lifts.bind (lifts_forgetKey base lines _) fun s' _ => Lifts.ok _

theorem lifts_opening (start t : Token) (allowed : Scan → Bool)
    (hallowed : ∀ s : Scan, allowed (s.lift base lines) = allowed s) (column : Nat) :
    Lifts base lines
      (do
        let s ← (s.roll column s.tokens.length start).forgetKey
        return { s.take 1 t with keyAllowed := allowed s })
      (do
        let s ← ((s.lift base lines).roll column (s.lift base lines).tokens.length start).forgetKey
        return { s.take 1 t with keyAllowed := allowed s }) := by
  rw [length_tokens_lift, roll_lift]
  refine Lifts.bind (lifts_forgetKey base lines _) fun s' _ => ?_
  rw [hallowed]
  exact Lifts.ok _

theorem lifts_colon : Lifts base lines s.colon (s.lift base lines).colon := by
  have hcandidate : (s.lift base lines).candidate =
      s.candidate.map (·.lift base.length lines) := rfl
  unfold colon
  rw [hcandidate]
  cases s.candidate with
  | some k =>
      have hroll : ((s.lift base lines).pushAt (k.lift base.length lines).tokens .key).roll
          (k.lift base.length lines).column (k.lift base.length lines).tokens .blockMappingStart =
            ((s.pushAt k.tokens .key).roll k.column k.tokens .blockMappingStart).lift base
              lines := by
        rw [KeyStart.lift, pushAt_lift, roll_lift]
      simp only [Option.map_some, hroll]
      exact Lifts.ok _
  | none =>
      have hallowed : (s.lift base lines).keyAllowed = s.keyAllowed := rfl
      have hroll : (s.lift base lines).roll (s.lift base lines).cursor.column
          (s.lift base lines).tokens.length .blockMappingStart =
            (s.roll s.cursor.column s.tokens.length .blockMappingStart).lift base lines := by
        rw [length_tokens_lift, roll_lift]
        rfl
      simp only [Option.map_none, inFlow_lift, hallowed, hroll]
      exact Lifts.ite (Lifts.error _) (Lifts.ok _)

theorem lifts_plainScalar : Lifts base lines s.plainScalar (s.lift base lines).plainScalar := by
  refine Lifts.bind (lifts_markKey base lines s) fun s' _ => ?_
  rw [inFlow_lift]
  exact Lifts.bind_map (Token.plainFrom_down _ _ _ _ _ _ _ _) fun p => Lifts.ok _

theorem lifts_closeFlow (t : Token) :
    Lifts base lines (s.closeFlow t) ((s.lift base lines).closeFlow t) := by
  refine Lifts.bind (lifts_forgetKey base lines s) fun s' _ => ?_
  obtain ⟨cursor, indents, candidate, outer, keyAllowed, tokens⟩ := s'
  cases outer with
  | nil => exact Lifts.ok _
  | cons k ks => exact Lifts.ok _

theorem lifts_directive : Lifts base lines s.directive (s.lift base lines).directive :=
  Lifts.bind (lifts_endBlocks base lines s) fun _ _ => Lifts.bind_same fun _ => Lifts.ok _

theorem lifts_marker (t : Token) :
    Lifts base lines (s.marker t) ((s.lift base lines).marker t) :=
  Lifts.bind (lifts_endBlocks base lines s) fun _ _ => Lifts.ok _

theorem lifts_openFlow (t : Token) :
    Lifts base lines (s.openFlow t) ((s.lift base lines).openFlow t) :=
  Lifts.bind (lifts_markKey base lines s) fun _ _ => Lifts.ok _

theorem lifts_comma : Lifts base lines s.comma (s.lift base lines).comma :=
  Lifts.bind (lifts_forgetKey base lines s) fun _ _ => Lifts.ok _

theorem indicatorRefused_lift : (!(s.lift base lines).inFlow && !(s.lift base lines).keyAllowed) =
    (!s.inFlow && !s.keyAllowed) := by
  rw [inFlow_lift]
  rfl

theorem lifts_dash : Lifts base lines s.dash (s.lift base lines).dash := by
  unfold dash
  rw [indicatorRefused_lift]
  exact Lifts.ite (Lifts.error _)
    (lifts_opening base lines s _ _ (fun _ => true) (fun _ => rfl) _)

theorem lifts_explicitKey : Lifts base lines s.explicitKey (s.lift base lines).explicitKey := by
  unfold explicitKey
  rw [indicatorRefused_lift]
  refine Lifts.ite (Lifts.error _) (lifts_opening base lines s _ _ (fun s => !s.inFlow) ?_ _)
  intro s'
  rw [inFlow_lift]

theorem lifts_name (t : Text → Token) :
    Lifts base lines (s.name t) ((s.lift base lines).name t) :=
  Lifts.bind (lifts_markKey base lines s) fun _ _ => Lifts.bind_same fun _ => Lifts.ok _

theorem lifts_tag : Lifts base lines s.tag (s.lift base lines).tag := by
  refine Lifts.bind (lifts_markKey base lines s) fun s' _ => ?_
  rw [inFlow_lift]
  exact Lifts.bind_same fun _ => Lifts.ok _

theorem lifts_blockScalar (folded : Bool) :
    Lifts base lines (s.blockScalar folded) ((s.lift base lines).blockScalar folded) :=
  Lifts.bind (lifts_forgetKey base lines s) fun _ _ =>
    Lifts.bind_map (Token.block_down _ _ _ _) fun _ => Lifts.ok _

theorem lifts_quotedScalar (double : Bool) :
    Lifts base lines (s.quotedScalar double) ((s.lift base lines).quotedScalar double) :=
  Lifts.bind (lifts_markKey base lines s) fun _ _ =>
    Lifts.bind_map (Token.quotedFrom_down _ _ _ _ _ _) fun _ => Lifts.ok _

theorem lifts_dispatch (c : Char) (r : Text) :
    Lifts base lines (s.dispatch c r) ((s.lift base lines).dispatch c r) := by
  have hcolumn : (s.lift base lines).cursor.column = s.cursor.column := rfl
  have hopen := lifts_openFlow base lines s
  have hclose := lifts_closeFlow base lines s
  have hname := lifts_name base lines s
  have hblock := lifts_blockScalar base lines s
  have hquoted := lifts_quotedScalar base lines s
  unfold dispatch
  rw [inFlow_lift, hcolumn]
  dsimp only
  refine Lifts.ite (lifts_directive base lines s) (Lifts.ite (lifts_marker base lines s _) ?_)
  refine Lifts.ite (hopen _) (Lifts.ite (hopen _) ?_)
  refine Lifts.ite (hclose _) (Lifts.ite (hclose _) ?_)
  refine Lifts.ite (lifts_comma base lines s) (Lifts.ite (lifts_dash base lines s) ?_)
  refine Lifts.ite (lifts_explicitKey base lines s) (Lifts.ite (lifts_colon base lines s) ?_)
  refine Lifts.ite (hname _) (Lifts.ite (hname _) (Lifts.ite (lifts_tag base lines s) ?_))
  refine Lifts.ite (hblock _) (Lifts.ite (hblock _) ?_)
  refine Lifts.ite (hquoted _) (Lifts.ite (hquoted _) ?_)
  exact Lifts.ite (lifts_plainScalar base lines s) (Lifts.error _)

/-- A scan behind other tokens and below other lines reads the same tokens. -/
theorem run_lift (fuel : Nat) (s : Scan) :
    run fuel (s.lift base lines) = (run fuel s).map (· ++ base) := by
  induction fuel generalizing s with
  | zero => rfl
  | succ fuel ih =>
      have happroach := lifts_approach base lines s
      rw [Lifts] at happroach
      rw [run, run, happroach]
      cases s.approach with
      | error e => rfl
      | ok a =>
          have hrest : (a.lift base lines).cursor.rest = a.cursor.rest := rfl
          simp only [Except.map, bind, Except.bind, hrest]
          split
          · have hforget := lifts_forgetKey base lines a.unrollAll
            rw [Lifts] at hforget
            rw [unrollAll_lift, hforget]
            cases a.unrollAll.forgetKey <;> rfl
          · next c r _ =>
              have hdispatch := lifts_dispatch base lines a c r
              rw [Lifts] at hdispatch
              rw [hdispatch]
              cases a.dispatch c r with
              | error e => rfl
              | ok b => exact ih b

/-! ## Steps enough -/

section Steps

variable {s : Scan} {c : Char} {r : Text}

theorem length_rest_take {s' : Scan} (hcursor : s'.cursor = s.cursor)
    (hrest : s.cursor.rest = c :: r)
    {width : Nat} (hwidth : 0 < width) (t : Token) :
    (s'.take width t).cursor.rest.length ≤ r.length := by
  simp only [take, Cursor.skip, hcursor, hrest, List.length_drop, List.length_cons]
  omega

theorem ensures_endBlocks (s : Scan) : Ensures (fun s' => s'.cursor = s.cursor) s.endBlocks := by
  refine Ensures.bind (ensures_forgetKey _) ?_
  rintro _ ⟨k, rfl⟩
  apply Ensures.ok
  unfold unrollAll
  split <;> rfl

variable (hrest : s.cursor.rest = c :: r)

include hrest

theorem length_rest_opening (column n : Nat) (start t : Token) (allowed : Scan → Bool) :
    Ensures (fun s' => s'.cursor.rest.length ≤ r.length)
      (do
        let s ← (s.roll column n start).forgetKey
        return { s.take 1 t with keyAllowed := allowed s }) := by
  refine Ensures.bind (ensures_forgetKey _) ?_
  rintro _ ⟨k, rfl⟩
  have hcursor : ({ s.roll column n start with candidate := k } : Scan).cursor = s.cursor :=
    cursor_roll s column n start
  exact Ensures.ok (length_rest_take hcursor hrest Nat.one_pos t)

theorem length_rest_colon : Ensures (fun s' => s'.cursor.rest.length ≤ r.length) s.colon := by
  unfold colon
  split
  · next k _ =>
      have hcursor := cursor_roll (s.pushAt k.tokens .key) k.column k.tokens .blockMappingStart
      exact Ensures.ok (length_rest_take (hcursor.trans rfl) hrest Nat.one_pos .value)
  · refine Ensures.ite (fun _ => Ensures.error _) ?_
    have hcursor := cursor_roll s s.cursor.column s.tokens.length .blockMappingStart
    exact Ensures.ok (length_rest_take hcursor hrest Nat.one_pos .value)

theorem length_rest_closeFlow (t : Token) :
    Ensures (fun s' => s'.cursor.rest.length ≤ r.length) (s.closeFlow t) := by
  refine Ensures.bind (ensures_forgetKey s) ?_
  rintro _ ⟨k, rfl⟩
  apply Ensures.ok
  have hcursor : ∀ s' : Scan, s'.cursor = s.cursor →
      (s'.take 1 t).cursor.rest.length ≤ r.length := fun s' h =>
    length_rest_take h hrest Nat.one_pos t
  dsimp only
  split
  · exact hcursor _ rfl
  · exact hcursor _ rfl

theorem length_rest_directive :
    Ensures (fun s' => s'.cursor.rest.length ≤ r.length) s.directive := by
  refine Ensures.bind (ensures_endBlocks s) fun s' hs' => ?_
  refine Ensures.bind (Token.ensures_directiveAt 0 _) ?_
  rintro ⟨t, width⟩ ⟨-, hwidth⟩
  exact Ensures.ok (length_rest_take hs' hrest hwidth t)

theorem length_rest_marker (t : Token) :
    Ensures (fun s' => s'.cursor.rest.length ≤ r.length) (s.marker t) := by
  refine Ensures.bind (ensures_endBlocks s) fun s' hs' => ?_
  exact Ensures.ok (length_rest_take hs' hrest (by omega) t)

theorem length_rest_openFlow (t : Token) :
    Ensures (fun s' => s'.cursor.rest.length ≤ r.length) (s.openFlow t) := by
  refine Ensures.bind (ensures_markKey s) ?_
  rintro _ ⟨k, rfl⟩
  exact Ensures.ok (length_rest_take (s := s) rfl hrest Nat.one_pos t)

theorem length_rest_comma : Ensures (fun s' => s'.cursor.rest.length ≤ r.length) s.comma := by
  refine Ensures.bind (ensures_forgetKey s) ?_
  rintro _ ⟨k, rfl⟩
  exact Ensures.ok (length_rest_take (s := s) rfl hrest Nat.one_pos .flowEntry)

theorem length_rest_name (t : Text → Token) :
    Ensures (fun s' => s'.cursor.rest.length ≤ r.length) (s.name t) := by
  refine Ensures.bind (ensures_markKey s) ?_
  rintro _ ⟨k, rfl⟩
  refine Ensures.bind (P := fun _ => True) (fun _ _ => trivial) fun n _ => ?_
  exact Ensures.ok (length_rest_take (s := s) rfl hrest (by omega) (t n))

theorem length_rest_tag : Ensures (fun s' => s'.cursor.rest.length ≤ r.length) s.tag := by
  refine Ensures.bind (ensures_markKey s) ?_
  rintro _ ⟨k, rfl⟩
  refine Ensures.bind (Token.ensures_tagAt 0 _ _) ?_
  rintro ⟨t, width⟩ ⟨-, hwidth⟩
  exact Ensures.ok (length_rest_take (s := s) rfl hrest hwidth t)

theorem length_rest_blockScalar (folded : Bool) :
    Ensures (fun s' => s'.cursor.rest.length ≤ r.length) (s.blockScalar folded) := by
  refine Ensures.bind (ensures_forgetKey s) ?_
  rintro _ ⟨k, rfl⟩
  refine Ensures.bind (Token.within_block hrest) fun p hp => ?_
  exact Ensures.ok ((Nat.le_add_left ..).trans hp)

theorem length_rest_quotedScalar (double : Bool) :
    Ensures (fun s' => s'.cursor.rest.length ≤ r.length) (s.quotedScalar double) := by
  refine Ensures.bind (ensures_markKey s) ?_
  rintro _ ⟨k, rfl⟩
  refine Ensures.bind (Token.within_quoted hrest) fun p hp => ?_
  exact Ensures.ok ((Nat.le_add_left ..).trans hp)

theorem length_rest_plainScalar (hmark : ¬(s.cursor.column = 0 ∧ Source.atMarker (c :: r) = true))
    (hstarts : startsPlain s.inFlow c r = true) :
    Ensures (fun s' => s'.cursor.rest.length ≤ r.length) s.plainScalar := by
  refine Ensures.bind (ensures_markKey s) ?_
  rintro _ ⟨k, rfl⟩
  refine Ensures.bind (Token.length_plain_stop_le hrest hmark hstarts) fun p hp => ?_
  exact Ensures.ok hp

/-- Whatever token comes next, a character is read. -/
theorem length_rest_dispatch :
    Ensures (fun s' => s'.cursor.rest.length ≤ r.length) (s.dispatch c r) := by
  have hopen := length_rest_openFlow hrest
  have hclose := length_rest_closeFlow hrest
  have hname := length_rest_name hrest
  have hblock := length_rest_blockScalar hrest
  have hquoted := length_rest_quotedScalar hrest
  unfold dispatch
  dsimp only
  refine Ensures.ite (fun _ => length_rest_directive hrest) ?_
  by_cases hmark : s.cursor.column = 0 ∧ Source.atMarker (c :: r) = true
  · rw [if_pos hmark]
    exact length_rest_marker hrest _
  rw [if_neg hmark]
  refine Ensures.ite (fun _ => hopen _) (Ensures.ite (fun _ => hopen _) ?_)
  refine Ensures.ite (fun _ => hclose _) (Ensures.ite (fun _ => hclose _) ?_)
  refine Ensures.ite (fun _ => length_rest_comma hrest)
    (Ensures.ite (fun _ => ?_) (Ensures.ite (fun _ => ?_) ?_))
  · exact Ensures.ite (fun _ => Ensures.error _)
      (length_rest_opening hrest _ _ _ _ fun _ => true)
  · exact Ensures.ite (fun _ => Ensures.error _)
      (length_rest_opening hrest _ _ _ _ fun s => !s.inFlow)
  refine Ensures.ite (fun _ => length_rest_colon hrest)
    (Ensures.ite (fun _ => hname _) (Ensures.ite (fun _ => hname _) ?_))
  refine Ensures.ite (fun _ => length_rest_tag hrest)
    (Ensures.ite (fun _ => hblock _) (Ensures.ite (fun _ => hblock _) ?_))
  refine Ensures.ite (fun _ => hquoted _) (Ensures.ite (fun _ => hquoted _) ?_)
  exact Ensures.ite (length_rest_plainScalar hrest hmark) (Ensures.error _)

end Steps

/-- A scan needs no more steps than one for each character and one for the
end. -/
theorem run_eq_of_length_lt {n m : Nat} {s : Scan} (hn : s.cursor.rest.length < n)
    (hm : s.cursor.rest.length < m) : run n s = run m s := by
  induction n generalizing m s with
  | zero => omega
  | succ n ih =>
      obtain ⟨m, rfl⟩ : ∃ k, m = k + 1 := ⟨m - 1, by omega⟩
      rw [run, run]
      cases happroach : s.approach with
      | error e => rfl
      | ok a =>
          have hcursor := ensures_approach s a happroach
          have hskip : a.cursor.rest.length ≤ s.cursor.rest.length := by
            rw [hcursor]
            exact length_skipGap_le _ _ _ _ _ _
          simp only [bind, Except.bind]
          split
          · rfl
          · next c r hrest =>
              have hlength : a.cursor.rest.length = r.length + 1 := by rw [hrest]; rfl
              cases hdispatch : a.dispatch c r with
              | error e => rfl
              | ok b =>
                  have hread := length_rest_dispatch hrest b hdispatch
                  exact ih (by omega) (by omega)

/-- All tokens of the document, in reverse, when the reader goes on to its
end. -/
def finish (s : Scan) : Except Error (List Token) :=
  run (s.cursor.rest.length + 1) s

theorem run_eq_finish {n : Nat} {s : Scan} (hn : s.cursor.rest.length < n) :
    run n s = s.finish :=
  run_eq_of_length_lt hn (Nat.lt_succ_self _)

theorem finish_lift (base : List Token) (lines : Nat) (s : Scan) :
    (s.lift base lines).finish = s.finish.map (· ++ base) :=
  run_lift base lines _ s

end Scan

end Marginalia.Yaml
