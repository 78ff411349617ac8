import Marginalia.Proofs.Yaml.FirstEntry
import Marginalia.Yaml.Value

/-!
# The value of one entry

A plain scalar is a string when it spells nothing else, and any other scalar is
a string when its tag leaves it one.  So when the first value of a mapping is a
string, that string was a scalar among the tokens behind the first colon.
-/

namespace Marginalia.Yaml

namespace Value

def ofDocument (d : Node.Document) : Except Error Value := do
  let (v, _) ← (ofNode ⟨d.root.anchored, 100 * d.events⟩ nestingLimit false d.root).run 0
  return v

def ofTokens (ts : List Token) : Except Error Value := do
  let (d, rest) ← Node.readDocument ts
  if (rest.dropWhile (· == .documentEnd)).isEmpty then ofDocument d else throw .severalDocuments

theorem exists_run_of_ofDocument_eq_ok {d : Node.Document} {v : Value} (h : ofDocument d = .ok v) :
    ∃ c, (ofNode ⟨d.root.anchored, 100 * d.events⟩ nestingLimit false d.root).run 0 =
      .ok (v, c) := by
  unfold ofDocument at h
  cases hrun : (ofNode ⟨d.root.anchored, 100 * d.events⟩ nestingLimit false d.root).run 0 with
  | error e =>
      rw [hrun] at h
      simp [Bind.bind, Except.bind] at h
  | ok p =>
      rw [hrun] at h
      obtain rfl : p.1 = v := Except.ok.inj h
      exact ⟨p.2, rfl⟩

theorem ofText_eq (t : Text) : ofText t = Token.ofText t >>= ofTokens := by
  unfold ofText Node.ofText
  cases Token.ofText t with
  | error e => rfl
  | ok ts =>
      simp only [ofTokens, bind, Except.bind]
      cases Node.readDocument ts with
      | error e => rfl
      | ok p =>
          dsimp only
          cases (p.2.dropWhile (· == .documentEnd)).isEmpty with
          | true => rfl
          | false => rfl

/-! ## Strings among the values -/

theorem run_ofNode_scalar (anchors : Anchors) (left n : Nat) (tagRead bare : Bool) (t : Text) :
    (ofNode anchors left tagRead (.scalar ⟨none, none⟩ bare t)).run n =
      (ofScalar tagRead none bare t).map fun v => (v, n) := by
  have hread : ofScalar (tagRead && true) none bare t = ofScalar tagRead none bare t := by
    rw [Bool.and_true]
  have hrun : (ofNode anchors left tagRead (.scalar ⟨none, none⟩ bare t)).run n =
      ofScalar (tagRead && true) none bare t >>= fun v => .ok (v, n) := by
    unfold ofNode
    rfl
  rw [hrun, hread]
  cases ofScalar tagRead none bare t with
  | error e => rfl
  | ok v => rfl

/-- The value of an entry of a mapping without a tag. -/
def ofEntry (anchors : Anchors) (left : Nat) (e : Node × Node) :
    StateT Nat (Except Error) (Value × Value) := do
  return (← ofNode anchors left false e.1, ← ofNode anchors left false e.2)

theorem ofNode_mapping (anchors : Anchors) (left : Nat) (entries : List (Node × Node)) :
    ofNode anchors (left + 1) false (.mapping ⟨none, none⟩ entries) =
      entries.mapM (ofEntry anchors left) >>= fun values => liftM (ofEntries values) := by
  have hread : ofNode anchors (left + 1) false (.mapping ⟨none, none⟩ entries) =
      entries.mapM (ofEntry anchors left) >>= fun values =>
        (liftM (ofEntries values) : StateT Nat (Except Error) Value) >>= pure := by
    unfold ofNode
    rfl
  simpa only [bind_pure] using hread

theorem ofTokens_entry (k t : Text) (bare : Bool) :
    ofTokens [.blockMappingStart, .key, .scalar true k, .value, .scalar bare t, .blockEnd] = do
      let key ← ofScalar false none true k
      let value ← ofScalar false none bare t
      return map [(key, value)] := by
  let key : Node := .scalar ⟨none, none⟩ true k
  let value : Node := .scalar ⟨none, none⟩ bare t
  have hread : ofTokens
      [.blockMappingStart, .key, .scalar true k, .value, .scalar bare t, .blockEnd] =
        ofDocument ⟨.mapping ⟨none, none⟩ [(key, value)], 4⟩ := rfl
  have hlimit : nestingLimit = 127 + 1 := rfl
  rw [hread, ofDocument, hlimit, ofNode_mapping]
  simp only [List.mapM_cons, List.mapM_nil, ofEntry, key, value, StateT.run_bind, run_ofNode_scalar]
  cases ofScalar false none true k with
  | error e => rfl
  | ok a =>
      cases ofScalar false none bare t with
      | error e => rfl
      | ok b => rfl

theorem ofInteger?_ne_str {t s : Text} : ofInteger? t ≠ some (.ok (str s)) := by
  intro h
  obtain ⟨i, -, hi⟩ := Option.bind_eq_some_iff.mp h
  split at hi
  · simp at hi
  · split at hi <;> simp at hi

theorem ofScalar_bare (t : Text) : ofScalar false none true t = ofPlain t := rfl

theorem ofPlain_eq_str_iff {t s : Text} :
    ofPlain t = .ok (str s) ↔
      s = t ∧ t ≠ [] ∧ isNull t = false ∧ bool? t = none ∧ ofInteger? t = none ∧
        (hasLeadingZero t = true ∨ float? t = none) := by
  have hinteger : ofInteger? t ≠ some (.ok (str s)) := ofInteger?_ne_str
  have hfloat : (if hasLeadingZero t then none else float? t) = none ↔
      hasLeadingZero t = true ∨ float? t = none := by
    split <;> simp [*]
  rw [← hfloat]
  unfold ofPlain
  split
  · next hnull =>
      constructor
      · intro h
        simp at h
      · rintro ⟨-, hempty, hno, -⟩
        simp [hempty, hno] at hnull
  · next hnull =>
      simp only [Bool.or_eq_true, List.isEmpty_iff, not_or, Bool.not_eq_true] at hnull
      cases hbool : bool? t with
      | some b => simp
      | none =>
          cases hint : ofInteger? t with
          | some r =>
              rw [hint] at hinteger
              have hr : r ≠ .ok (str s) := fun h => hinteger (congrArg some h)
              simp [hr]
          | none =>
              cases (if hasLeadingZero t then none else float? t) with
              | some x => simp
              | none =>
                  simp [hnull]
                  exact eq_comm

theorem ofTagged_eq_str {tag t s : Text} (h : ofTagged tag t = .ok (str s)) : s = t := by
  unfold ofTagged at h
  split at h
  · cases hb : bool? t <;> simp [hb] at h
  split at h
  · cases hi : ofInteger? t with
    | none => simp [hi] at h
    | some r =>
        rw [hi] at h
        exact absurd (hi.trans (congrArg some h)) ofInteger?_ne_str
  split at h
  · cases hx : float? t <;> simp [hx] at h
  split at h
  · cases hn : isNull t <;> simp [hn] at h
  · exact (str.inj (Except.ok.inj h)).symm

theorem ofScalar_eq_str {tagRead : Bool} {tag : Option Text} {bare : Bool} {t s : Text}
    (h : ofScalar tagRead tag bare t = .ok (str s)) : s = t := by
  unfold ofScalar at h
  split at h
  · exact ofTagged_eq_str h
  · split at h
    · exact (ofPlain_eq_str_iff.mp h).1
    · exact (str.inj (Except.ok.inj h)).symm

theorem ofEntries_eq_ok {entries : List (Value × Value)} {v : Value}
    (h : ofEntries entries = .ok v) : v = map entries := by
  unfold ofEntries at h
  split at h
  · exact (Except.ok.inj h).symm
  · simp at h

/-- A node that has a string as its value is a scalar with that text. -/
theorem gives_ofNode_str {n : Node} {ts : List Token} (hn : n.SpelledIn ts) (anchors : Anchors)
    (left c : Nat) :
    Gives (fun v _ => ∀ s, v = str s → s = [] ∨ ∃ bare, Token.scalar bare s ∈ ts)
      (ofNode anchors left false n) c := by
  have hfollow : ∀ {n : Node}, (∀ a, n ≠ .aliasTo a) →
      Gives (fun followed _ => followed = none) (anchors.follow n) c := by
    intro n hn
    cases n with
    | aliasTo a => exact absurd rfl (hn a)
    | scalar => exact Gives.of_run rfl rfl
    | sequence => exact Gives.of_run rfl rfl
    | mapping => exact Gives.of_run rfl rfl
  unfold ofNode
  cases n with
  | aliasTo anchor => exact hn.elim
  | scalar p bare t =>
      have htext : ∀ {tagRead : Bool} {c : Nat},
          Gives (fun v _ => ∀ s, v = str s → s = [] ∨ ∃ bare, Token.scalar bare s ∈ ts)
            (liftM (ofScalar tagRead p.tag bare t) : StateT Nat (Except Error) Value) c := by
        intro tagRead c
        apply gives_lift
        rintro _ ha s rfl
        rw [ofScalar_eq_str ha]
        exact hn.imp_right fun h => ⟨bare, h⟩
      refine Gives.bind (hfollow (by simp)) ?_
      rintro _ c rfl
      dsimp only [Option.getD_none]
      split
      · exact Gives.any.bind fun v _ _ => gives_pure (by simp)
      · exact htext
  | sequence p items =>
      refine Gives.bind (hfollow (by simp)) ?_
      rintro _ c rfl
      dsimp only [Option.getD_none]
      split
      · exact Gives.of_error rfl
      · refine Gives.any.bind fun items _ _ => ?_
        split <;> exact gives_pure (by simp)
  | mapping p entries =>
      refine Gives.bind (hfollow (by simp)) ?_
      rintro _ c rfl
      dsimp only [Option.getD_none]
      split
      · exact Gives.of_error rfl
      · refine Gives.any.bind fun es _ _ => ?_
        refine Gives.bind (P := fun v _ => v = map es) (gives_lift fun v => ofEntries_eq_ok) ?_
        rintro _ c rfl
        split <;> exact gives_pure (by simp)

theorem gives_ofNode_first {k v : Node} {ts : List Token} (hv : v.SpelledIn ts)
    (entries : List (Node × Node)) (anchors : Anchors) (left c : Nat) :
    Gives (fun a _ => ∀ key s, a = map [(key, str s)] → s = [] ∨ ∃ bare, Token.scalar bare s ∈ ts)
      (ofNode anchors (left + 1) false (.mapping ⟨none, none⟩ ((k, v) :: entries))) c := by
  rw [ofNode_mapping, List.mapM_cons]
  refine Gives.bind (P := fun es _ => ∃ key a es', es = (key, a) :: es' ∧
    ∀ s, a = str s → s = [] ∨ ∃ bare, Token.scalar bare s ∈ ts) ?_ ?_
  · refine Gives.bind (P := fun e _ => ∀ s, e.2 = str s → s = [] ∨ ∃ bare, Token.scalar bare s ∈ ts)
      ?_ fun e _ he => Gives.any.bind fun es' _ _ => gives_pure ⟨e.1, e.2, es', rfl, he⟩
    refine Gives.any.bind fun key c _ => ?_
    exact (gives_ofNode_str hv anchors left c).bind fun a _ ha => gives_pure ha
  · rintro _ c ⟨key, a, es', rfl, ha⟩
    apply gives_lift
    intro b hb key' s hs
    rw [ofEntries_eq_ok hb] at hs
    obtain ⟨he, -⟩ := List.cons.inj (map.inj hs)
    exact ha s (Prod.mk.inj he).2

/-- The string behind the first key is a scalar among the tokens behind the
colon. -/
theorem mem_of_ofTokens_eq_ok {k key s : Text} {ts : List Token} (hs : s ≠ [])
    (h : ofTokens (.blockMappingStart :: .key :: .scalar true k :: .value :: ts) =
      .ok (map [(str key, str s)])) :
    ∃ bare, Token.scalar bare s ∈ ts := by
  unfold ofTokens at h
  cases hread : Node.readDocument
      (.blockMappingStart :: .key :: .scalar true k :: .value :: ts) with
  | error e =>
      rw [hread] at h
      simp [Bind.bind, Except.bind] at h
  | ok p =>
      obtain ⟨d, rest⟩ := p
      obtain ⟨v, es, hroot, hv⟩ := Node.readDocument_spelledIn hread
      rw [hread] at h
      simp only [Bind.bind, Except.bind] at h
      split at h
      · obtain ⟨c, hrun⟩ := exists_run_of_ofDocument_eq_ok h
        rw [hroot] at hrun
        have hspelled := gives_ofNode_first hv es _ 127 0 _ _ hrun (str key) s rfl
        exact hspelled.resolve_left hs
      · simp at h

end Value

end Marginalia.Yaml
