import Marginalia.Proofs.Yaml.Settled

/-!
# The rest of a scan

Each token that is read from a document takes its text from what is left there.
So behind settled tokens no scalar is longer than the document that was left
when they were read.
-/

namespace Marginalia.Yaml

namespace Token

/-! ## Tokens made of names -/

theorem ensures_versionDirectiveAt (n : Nat) (t : Text) :
    Ensures (fun p => p.1.Short n) (versionDirectiveAt t) := by
  refine Ensures.bind (P := fun _ => True) (fun _ _ => trivial) ?_
  rintro ⟨major, k⟩ -
  refine Ensures.ite (fun _ => Ensures.error _) ?_
  refine Ensures.bind (P := fun _ => True) (fun _ _ => trivial) ?_
  rintro ⟨minor, m⟩ -
  exact Ensures.ok trivial

theorem ensures_tagDirectiveAt (n : Nat) (t : Text) :
    Ensures (fun p => p.1.Short n) (tagDirectiveAt t) := by
  unfold tagDirectiveAt
  refine Ensures.ite (fun _ => Ensures.error _) ?_
  refine Ensures.ite (fun _ => Ensures.error _) ?_
  refine Ensures.ite (fun _ => Ensures.error _) ?_
  refine Ensures.bind (P := fun _ => True) (fun _ _ => trivial) ?_
  rintro ⟨written, text⟩ -
  refine Ensures.ite (fun _ => Ensures.error _) ?_
  exact Ensures.ok trivial

theorem ensures_directiveAt (n : Nat) (t : Text) :
    Ensures (fun p => p.1.Short n ∧ 0 < p.2) (directiveAt t) := by
  unfold directiveAt
  refine Ensures.ite (fun _ => Ensures.error _) ?_
  dsimp only
  refine Ensures.ite (fun _ => Ensures.bind (ensures_versionDirectiveAt n _) ?_)
    (Ensures.ite (fun _ => Ensures.bind (ensures_tagDirectiveAt n _) ?_) (Ensures.error _))
  all_goals
    rintro ⟨found, k⟩ hshort
    dsimp only
    split
    · exact Ensures.ok ⟨hshort, by omega⟩
    · exact Ensures.ite (fun _ => Ensures.ok ⟨hshort, by omega⟩) (Ensures.error _)

theorem length_tagHandle_pos (t : Text) : 0 < (tagHandle t).length := by
  unfold tagHandle
  dsimp only
  split <;> exact Nat.succ_pos _

theorem ensures_tagAt (n : Nat) (flow : Bool) (t : Text) :
    Ensures (fun p => p.1.Short n ∧ 0 < p.2) (tagAt flow t) := by
  have hhandle := length_tagHandle_pos t
  have htext : ∀ {verbatim r}, Ensures (fun _ => True) (tagText verbatim r) := fun _ _ => trivial
  have htag : ∀ handle suffix, (tag handle suffix).Short n := fun _ _ => trivial
  have hend : ∀ (found : Token) (k : Nat), found.Short n → 0 < k → ∀ ended : Bool,
      Ensures (fun p => p.1.Short n ∧ 0 < p.2)
        (if ended = true then return (found, k) else throw .badTag) := by
    intro found k hshort hk ended
    exact Ensures.ite (fun _ => Ensures.ok ⟨hshort, hk⟩) (Ensures.error _)
  unfold tagAt
  dsimp only
  refine Ensures.ite (fun _ => Ensures.bind htext ?_)
    (Ensures.ite (fun _ => Ensures.bind htext ?_) (Ensures.bind htext ?_))
  · rintro ⟨written, text⟩ -
    refine Ensures.ite (fun _ => Ensures.error _) ?_
    exact hend _ _ (htag _ _) (by omega) _
  · rintro ⟨written, text⟩ -
    refine Ensures.ite (fun _ => Ensures.error _) ?_
    exact hend _ _ (htag _ _) (by omega) _
  · rintro ⟨written, text⟩ -
    refine Ensures.ite (fun _ => ?_) ?_
    · exact hend _ _ (htag _ _) (by omega) _
    · exact hend _ _ (htag _ _) (by omega) _

end Token

namespace Scan

/-- The first tokens are settled, and at most `n` characters are left. -/
structure Bounded (base : List Token) (n : Nat) (s : Scan) : Prop extends Settled base n s where
  rest : s.cursor.rest.length ≤ n

variable {base : List Token} {n : Nat} {s s' : Scan}

/-! ## One token more -/

theorem cursor_roll (s : Scan) (column k : Nat) (t : Token) :
    (s.roll column k t).cursor = s.cursor := by
  unfold roll
  dsimp only
  split_ifs <;> rfl

theorem Bounded.congr (h : Bounded base n s) (htokens : s'.tokens = s.tokens)
    (hcursor : s'.cursor = s.cursor)
    (hstarts : ∀ k ∈ s'.candidate :: s'.outer, k ∈ s.candidate :: s.outer ∨ k = none) :
    Bounded base n s' :=
  ⟨h.toSettled.congr htokens hstarts, hcursor ▸ h.rest⟩

theorem bounded_take (h : Settled base n s) {width : Nat} {t : Token} (ht : t.Short n)
    (hrest : s.cursor.rest.length ≤ n + width) : Bounded base n (s.take width t) := by
  refine ⟨(h.push ht).congr rfl fun _ => Or.inl, ?_⟩
  simp only [take, Cursor.skip, List.length_drop]
  omega

section Dispatch

variable (h : Settled base n s)

include h

theorem settled_endBlocks :
    Ensures (fun s' => Settled base n s' ∧ s'.cursor = s.cursor) s.endBlocks := by
  have hcursor : s.unrollAll.cursor = s.cursor := by
    unfold unrollAll
    split <;> rfl
  refine Ensures.bind (settled_forgetKey h.unrollAll) ?_
  rintro s' ⟨h', k, rfl⟩
  exact Ensures.ok ⟨h'.congr rfl fun _ => Or.inl, hcursor⟩

variable (hrest : s.cursor.rest.length ≤ n + 1)

include hrest

theorem bounded_directive : Ensures (Bounded base n) s.directive := by
  refine Ensures.bind (settled_endBlocks h) ?_
  rintro s' ⟨h', hcursor⟩
  refine Ensures.bind (Token.ensures_directiveAt n _) ?_
  rintro ⟨t, width⟩ ⟨ht, hwidth⟩
  apply Ensures.ok
  apply bounded_take h' ht
  rw [hcursor]
  omega

theorem bounded_marker {t : Token} (ht : t.Short n) : Ensures (Bounded base n) (s.marker t) := by
  refine Ensures.bind (settled_endBlocks h) ?_
  rintro s' ⟨h', hcursor⟩
  apply Ensures.ok
  apply bounded_take h' ht
  rw [hcursor]
  omega

theorem bounded_openFlow {t : Token} (ht : t.Short n) :
    Ensures (Bounded base n) (s.openFlow t) := by
  refine Ensures.bind (settled_markKey h) ?_
  rintro s' ⟨h', k, rfl⟩
  apply Ensures.ok
  refine Bounded.congr (bounded_take h' ht hrest) rfl rfl ?_
  intro k' hk'
  rcases List.mem_cons.mp hk' with rfl | hk'
  · exact Or.inr rfl
  · exact Or.inl hk'

theorem bounded_closeFlow {t : Token} (ht : t.Short n) :
    Ensures (Bounded base n) (s.closeFlow t) := by
  refine Ensures.bind (settled_forgetKey h) ?_
  rintro s' ⟨h', k, rfl⟩
  apply Ensures.ok
  split
  · exact (bounded_take h' ht hrest).congr rfl rfl fun _ => Or.inl
  · next k' ks houter =>
      refine Bounded.congr (bounded_take h' ht hrest) rfl rfl ?_
      intro k'' hk''
      left
      have hold : k'' ∈ k' :: ks := hk''
      rw [← houter] at hold
      exact List.mem_cons_of_mem _ hold

theorem bounded_comma : Ensures (Bounded base n) s.comma := by
  refine Ensures.bind (settled_forgetKey h) ?_
  rintro s' ⟨h', k, rfl⟩
  apply Ensures.ok
  exact (bounded_take h' (t := .flowEntry) trivial hrest).congr rfl rfl fun _ => Or.inl

theorem bounded_opening (start t : Token) (hstart : start.Short n) (ht : t.Short n)
    (allowed : Scan → Bool) (column k : Nat) (hk : base.length ≤ k) :
    Ensures (Bounded base n) (do
      let s ← (s.roll column k start).forgetKey
      return { s.take 1 t with keyAllowed := allowed s }) := by
  refine Ensures.bind (settled_forgetKey (h.roll hstart column hk)) ?_
  rintro s' ⟨h', k', rfl⟩
  apply Ensures.ok
  refine Bounded.congr (bounded_take h' ht ?_) rfl rfl fun _ => Or.inl
  rw [cursor_roll]
  exact hrest

theorem bounded_dash : Ensures (Bounded base n) s.dash := by
  have hopen := bounded_opening h hrest .blockSequenceStart .blockEntry trivial trivial
    (fun _ => true) s.cursor.column s.tokens.length h.length_le
  unfold dash
  split_ifs
  · exact Ensures.error _
  · exact hopen

theorem bounded_explicitKey : Ensures (Bounded base n) s.explicitKey := by
  have hopen := bounded_opening h hrest .blockMappingStart .key trivial trivial
    (fun s => !s.inFlow) s.cursor.column s.tokens.length h.length_le
  unfold explicitKey
  split_ifs
  · exact Ensures.error _
  · exact hopen

/-- A colon makes a key of a candidate, which lies behind the settled tokens. -/
theorem bounded_colon : Ensures (Bounded base n) s.colon := by
  unfold colon
  split
  · next k hk =>
      have hplace : base.length ≤ k.tokens := h.starts s.candidate (List.mem_cons_self ..) k hk
      have hkey := h.pushAt (t := .key) trivial hplace
      have hroll := hkey.roll (t := .blockMappingStart) trivial k.column hplace
      apply Ensures.ok
      refine Bounded.congr (bounded_take hroll (t := .value) trivial ?_) rfl rfl ?_
      · rw [cursor_roll]
        exact hrest
      · intro k' hk'
        rcases List.mem_cons.mp hk' with rfl | hk'
        · exact Or.inr rfl
        · exact Or.inl (List.mem_cons_of_mem _ hk')
  · split_ifs
    · exact Ensures.error _
    · have hroll := h.roll (t := .blockMappingStart) trivial s.cursor.column h.length_le
      apply Ensures.ok
      refine Bounded.congr (bounded_take hroll (t := .value) trivial ?_) rfl rfl fun _ => Or.inl
      rw [cursor_roll]
      exact hrest

theorem bounded_name {t : Text → Token} (ht : ∀ name, (t name).Short n) :
    Ensures (Bounded base n) (s.name t) := by
  refine Ensures.bind (settled_markKey h) ?_
  rintro s' ⟨h', k, rfl⟩
  refine Ensures.bind (P := fun _ => True) (fun _ _ => trivial) ?_
  intro found _
  apply Ensures.ok
  refine Bounded.congr (bounded_take h' (ht found) ?_) rfl rfl fun _ => Or.inl
  dsimp only
  omega

theorem bounded_tag : Ensures (Bounded base n) s.tag := by
  refine Ensures.bind (settled_markKey h) ?_
  rintro s' ⟨h', k, rfl⟩
  refine Ensures.bind (Token.ensures_tagAt n _ _) ?_
  rintro ⟨t, width⟩ ⟨ht, hwidth⟩
  apply Ensures.ok
  refine Bounded.congr (bounded_take h' ht ?_) rfl rfl fun _ => Or.inl
  dsimp only
  omega

end Dispatch

theorem bounded_scalar (h : Settled base n s) (bare : Bool) {text : Text} {stop : Cursor}
    (htext : text.length ≤ n) (hstop : stop.rest.length ≤ n) (allowed : Bool) :
    Bounded base n { s.push (.scalar bare text) with cursor := stop, keyAllowed := allowed } :=
  ⟨(h.push (t := .scalar bare text) htext).congr rfl fun _ => Or.inl, hstop⟩

theorem bounded_blockScalar (h : Settled base n s) {c : Char} {r : Text}
    (hrest : s.cursor.rest = c :: r) (hr : r.length ≤ n) (folded : Bool) :
    Ensures (Bounded base n) (s.blockScalar folded) := by
  refine Ensures.bind (settled_forgetKey h) ?_
  rintro s' ⟨h', k, rfl⟩
  refine Ensures.bind (Token.within_block hrest) ?_
  rintro ⟨text, stop⟩ hwithin
  have hlength : text.length + stop.rest.length ≤ r.length := hwithin
  exact Ensures.ok (bounded_scalar h' false (by omega) (by omega) true)

theorem bounded_quotedScalar (h : Settled base n s) {c : Char} {r : Text}
    (hrest : s.cursor.rest = c :: r) (hr : r.length ≤ n) (double : Bool) :
    Ensures (Bounded base n) (s.quotedScalar double) := by
  refine Ensures.bind (settled_markKey h) ?_
  rintro s' ⟨h', k, rfl⟩
  refine Ensures.bind (Token.within_quoted hrest) ?_
  rintro ⟨text, stop⟩ hwithin
  have hlength : text.length + stop.rest.length ≤ r.length := hwithin
  exact Ensures.ok (bounded_scalar h' false (by omega) (by omega) false)

theorem bounded_plainScalar (h : Settled base n s)
    (hplain : Ensures (fun p => p.text.length ≤ n ∧ p.stop.rest.length ≤ n)
      (Token.plain s.inFlow ((s.indent?.map (· + 1)).getD 0) s.cursor)) :
    Ensures (Bounded base n) s.plainScalar := by
  refine Ensures.bind (settled_markKey h) ?_
  rintro s' ⟨h', k, rfl⟩
  refine Ensures.bind hplain ?_
  rintro p ⟨htext, hstop⟩
  exact Ensures.ok (bounded_scalar h' true htext hstop p.crossedLine)

/-- Whatever token comes next, it is short; only a plain scalar may hold all
that is left. -/
theorem bounded_dispatch (h : Settled base n s) {c : Char} {r : Text}
    (hrest : s.cursor.rest = c :: r) (hr : r.length ≤ n)
    (hplain : Scan.startsPlain s.inFlow c r = true →
      Ensures (fun p => p.text.length ≤ n ∧ p.stop.rest.length ≤ n)
        (Token.plain s.inFlow ((s.indent?.map (· + 1)).getD 0) s.cursor)) :
    Ensures (Bounded base n) (s.dispatch c r) := by
  have hlength : s.cursor.rest.length ≤ n + 1 := by
    rw [hrest, List.length_cons]
    omega
  have hmarker : (if c = '-' then Token.documentStart else .documentEnd).Short n := by
    split <;> trivial
  unfold dispatch
  refine Ensures.ite (fun _ => bounded_directive h hlength) ?_
  refine Ensures.ite (fun _ => bounded_marker h hlength hmarker) ?_
  refine Ensures.ite (fun _ => bounded_openFlow h hlength trivial) ?_
  refine Ensures.ite (fun _ => bounded_openFlow h hlength trivial) ?_
  refine Ensures.ite (fun _ => bounded_closeFlow h hlength trivial) ?_
  refine Ensures.ite (fun _ => bounded_closeFlow h hlength trivial) ?_
  refine Ensures.ite (fun _ => bounded_comma h hlength) ?_
  refine Ensures.ite (fun _ => bounded_dash h hlength) ?_
  refine Ensures.ite (fun _ => bounded_explicitKey h hlength) ?_
  refine Ensures.ite (fun _ => bounded_colon h hlength) ?_
  refine Ensures.ite (fun _ => bounded_name h hlength fun _ => trivial) ?_
  refine Ensures.ite (fun _ => bounded_name h hlength fun _ => trivial) ?_
  refine Ensures.ite (fun _ => bounded_tag h hlength) ?_
  refine Ensures.ite (fun _ => bounded_blockScalar h hrest hr false) ?_
  refine Ensures.ite (fun _ => bounded_blockScalar h hrest hr true) ?_
  refine Ensures.ite (fun _ => bounded_quotedScalar h hrest hr false) ?_
  refine Ensures.ite (fun _ => bounded_quotedScalar h hrest hr true) ?_
  refine Ensures.ite (fun hstarts => bounded_plainScalar h (hplain hstarts)) ?_
  exact Ensures.error _

/-! ## The rest of a document -/

theorem length_skipGap_le (flow allowed comment : Bool) (line column : Nat) (t : Text) :
    (skipGap flow allowed comment line column t).1.rest.length ≤ t.length := by
  induction t generalizing allowed comment line column with
  | nil => exact Nat.le_refl _
  | cons c r ih =>
      rw [skipGap]
      split_ifs
      · exact (ih ..).trans (Nat.le_succ _)
      · exact (ih ..).trans (Nat.le_succ _)
      · exact (ih ..).trans (Nat.le_succ _)
      · exact (ih ..).trans (Nat.le_succ _)
      · exact (ih ..).trans (Nat.le_succ _)
      · exact Nat.le_refl _

theorem settled_approach (h : Settled base n s) :
    Ensures (fun s' => Settled base n s' ∧ s'.cursor =
      (skipGap s.inFlow s.keyAllowed false s.cursor.line s.cursor.column s.cursor.rest).1)
      s.approach := by
  unfold approach
  generalize skipGap s.inFlow s.keyAllowed false s.cursor.line s.cursor.column s.cursor.rest = p
  obtain ⟨cursor, keyAllowed⟩ := p
  have hmoved : Settled base n { s with cursor, keyAllowed } := h.congr rfl fun _ => Or.inl
  refine Ensures.bind (settled_dropStale hmoved) ?_
  rintro s' ⟨h', hcursor⟩
  apply Ensures.ok
  refine ⟨h'.unroll cursor.column, ?_⟩
  have hunroll : (s'.unroll cursor.column).cursor = s'.cursor := by
    unfold unroll
    split_ifs <;> rfl
  exact hunroll.trans hcursor

/-- What holds of the state at the next token and of the rest of the run holds
of the run. -/
theorem ensures_run_succ {fuel : Nat}
    (hrun : ∀ s, Bounded base n s → Ensures (Continues base n) (run fuel s))
    (happroach : Ensures (fun s' => Settled base n s' ∧ ∀ c r, s'.cursor.rest = c :: r →
      Ensures (Bounded base n) (s'.dispatch c r)) s.approach) :
    Ensures (Continues base n) (run (fuel + 1) s) := by
  refine Ensures.bind happroach ?_
  rintro s' ⟨h', hdispatch⟩
  split
  · refine Ensures.bind (settled_forgetKey h'.unrollAll) ?_
    rintro s'' ⟨h'', -⟩
    exact Ensures.ok h''.later
  · next c r hrest => exact Ensures.bind (hdispatch c r hrest) hrun

theorem bounded_dispatch_of_bounded (h : Bounded base n s) {c : Char} {r : Text}
    (hrest : s.cursor.rest = c :: r) : Ensures (Bounded base n) (s.dispatch c r) := by
  have hlength := h.rest
  rw [hrest, List.length_cons] at hlength
  apply bounded_dispatch h.toSettled hrest (by omega)
  intro _
  refine (Token.within_plain _ _ s.cursor).mono ?_
  intro p hp
  have htotal : p.text.length + p.stop.rest.length ≤ s.cursor.rest.length := hp
  rw [hrest, List.length_cons] at htotal
  constructor <;> omega

/-- The settled tokens stay first to the end, and every later scalar is
short. -/
theorem ensures_run (h : Bounded base n s) (fuel : Nat) :
    Ensures (Continues base n) (run fuel s) := by
  induction fuel generalizing s with
  | zero => exact Ensures.error _
  | succ fuel ih =>
      apply ensures_run_succ fun s h => ih h
      refine (settled_approach h.toSettled).mono ?_
      rintro s' ⟨h', hcursor⟩
      have hskip := length_skipGap_le s.inFlow s.keyAllowed false s.cursor.line s.cursor.column
        s.cursor.rest
      have hbounded : Bounded base n s' := by
        refine ⟨h', ?_⟩
        rw [hcursor]
        exact hskip.trans h.rest
      exact ⟨h', fun c r hrest => bounded_dispatch_of_bounded hbounded hrest⟩

end Scan

end Marginalia.Yaml
