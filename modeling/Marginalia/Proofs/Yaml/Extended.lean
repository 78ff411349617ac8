import Marginalia.Proofs.Yaml.FirstEntry

/-!
# Reading nodes before other tokens

A node is read by looking at one token ahead.  So a reading that ends before the
last token gives the same with other tokens behind, and so does one that uses up
all tokens when none are put behind; and it may have more fuel, or less as long
as that is enough for the tokens.  `Extends` says all of this at once, and it is
closed under sequence, so each function of the reader is settled by its own
clauses.
-/

namespace Marginalia.Yaml

namespace Node

/-- The place with other tokens behind it. -/
def Reader.append (r : Reader) (ts : List Token) : Reader :=
  { r with tokens := r.tokens ++ ts }

def Reader.after (r : Reader) (events : Nat) : Reader :=
  { r with events }

/-- Where `x` gives a result for tokens with the property `P`, `y` gives it with
more tokens behind, as far as `x` leaves one for the look ahead, and behind any
number of events. -/
def ExtendsOn {α : Type} (P : List Token → Prop) (x y : Read α) : Prop :=
  ∀ r a r', P r.tokens → x.run r = .ok (a, r') →
    r'.tokens.length ≤ r.tokens.length ∧ ∃ n, r'.events = r.events + n ∧
      ∀ ts events, (r'.tokens = [] → ts = []) →
        y.run ((r.append ts).after events) = .ok (a, (r'.append ts).after (events + n))

/-- The same for at most `most` tokens. -/
def Extends {α : Type} (most : Nat) : Read α → Read α → Prop :=
  ExtendsOn (·.length ≤ most)

/-- The same when the next token is known. -/
def ExtendsAt {α : Type} (next : Option Token) (most : Nat) : Read α → Read α → Prop :=
  ExtendsOn fun ts => ts.head? = next ∧ ts.length ≤ most

namespace ExtendsOn

variable {α : Type} {P Q : List Token → Prop} {x y : Read α}

theorem pure (a : α) : ExtendsOn P (pure a) (pure a) := by
  intro r b r' _ h
  obtain ⟨rfl, rfl⟩ := Prod.mk.inj (Except.ok.inj h)
  exact ⟨Nat.le_refl _, 0, rfl, fun _ _ _ => rfl⟩

theorem of_error (h : ∀ r, ∃ e, x.run r = .error e) : ExtendsOn P x y := by
  intro r a r' _ hr
  obtain ⟨e, he⟩ := h r
  rw [he] at hr
  simp at hr

theorem mono (h : ExtendsOn Q x y) (hP : ∀ ts, P ts → Q ts) : ExtendsOn P x y :=
  fun r a r' hr => h r a r' (hP _ hr)

theorem ite {p : Prop} [Decidable p] {x' y' : Read α} (h : p → ExtendsOn P x y)
    (h' : ¬p → ExtendsOn P x' y') : ExtendsOn P (if p then x else x') (if p then y else y') := by
  split
  · next hp => exact h hp
  · next hp => exact h' hp

/-- A step that looks at the place, but neither at the tokens nor at the
events. -/
theorem get_bind {f : Reader → Read α}
    (hsame : ∀ r ts events, f ((Reader.append r ts).after events) = f r)
    (hf : ∀ r, ExtendsOn P (f r) (f r)) : ExtendsOn P (get >>= f) (get >>= f) := by
  intro r a r' hr h
  obtain ⟨hleft, n, hevents, hlong⟩ := hf r r a r' hr h
  refine ⟨hleft, n, hevents, fun ts events hts => ?_⟩
  change (f ((r.append ts).after events)).run ((r.append ts).after events) = _
  rw [hsame]
  exact hlong ts events hts

end ExtendsOn

namespace Extends

variable {α β : Type} {most : Nat} {x y : Read α}

theorem bind {f g : α → Read β} (hx : Extends most x y) (hf : ∀ a, Extends most (f a) (g a)) :
    Extends most (x >>= f) (y >>= g) := by
  intro r b r' hr h
  rw [StateT.run_bind] at h
  cases ha : x.run r with
  | error e =>
      rw [ha] at h
      simp [Bind.bind, Except.bind] at h
  | ok p =>
      obtain ⟨a, m⟩ := p
      rw [ha] at h
      obtain ⟨hleft, n, hevents, hlong⟩ := hx r a m hr ha
      obtain ⟨hleft', n', hevents', hlong'⟩ := hf a m b r' (Nat.le_trans hleft hr) h
      refine ⟨Nat.le_trans hleft' hleft, n + n', by rw [hevents', hevents, Nat.add_assoc], ?_⟩
      intro ts events hts
      have hnil : m.tokens = [] → ts = [] := by
        intro hm
        rw [hm, List.length_nil, Nat.le_zero, List.length_eq_zero_iff] at hleft'
        exact hts hleft'
      have hfirst := hlong ts events hnil
      rw [StateT.run_bind, hfirst, ← Nat.add_assoc]
      exact hlong' ts (events + n) hts

theorem peek_bind {f g : Option Token → Read α}
    (h : ∀ next, ExtendsAt next most (f next) (g next)) :
    Extends most (Read.peek >>= f) (Read.peek >>= g) := by
  intro r a r' hr hrun
  obtain ⟨hleft, n, hevents, hlong⟩ := h r.tokens.head? r a r' ⟨rfl, hr⟩ hrun
  refine ⟨hleft, n, hevents, fun ts events hts => ?_⟩
  have hhead : (r.tokens ++ ts).head? = r.tokens.head? := by
    cases htokens : r.tokens with
    | nil =>
        rw [htokens, List.length_nil, Nat.le_zero, List.length_eq_zero_iff] at hleft
        rw [hts hleft]
        rfl
    | cons t tokens => rfl
  change (g (r.tokens ++ ts).head?).run ((r.append ts).after events) = _
  rw [hhead]
  exact hlong ts events hts

end Extends

namespace ExtendsAt

variable {α : Type} {most : Nat} {x y : Read α}

theorem of_extends {next : Option Token} (h : Extends most x y) : ExtendsAt next most x y :=
  ExtendsOn.mono h fun _ => And.right

theorem skip_bind {t : Token} {f g : Unit → Read α}
    (h : ∀ less, less + 1 = most → Extends less (f ()) (g ())) :
    ExtendsAt (some t) most (Read.skip >>= f) (Read.skip >>= g) := by
  rintro r a r' ⟨hhead, hr⟩ hrun
  obtain ⟨tokens, htokens⟩ := List.head?_eq_some_iff.mp hhead
  rw [htokens, List.length_cons] at hr
  have htail : r.tokens.tail = tokens := by rw [htokens, List.tail_cons]
  change (f ()).run { r with tokens := r.tokens.tail } = .ok (a, r') at hrun
  rw [htail] at hrun
  have hless : tokens.length ≤ most - 1 := Nat.le_sub_one_of_lt hr
  obtain ⟨hleft, n, hevents, hlong⟩ := h (most - 1) (by omega) _ a r' hless hrun
  rw [htokens, List.length_cons]
  refine ⟨Nat.le_trans hleft (Nat.le_succ _), n, hevents, fun ts events hts => ?_⟩
  have hskipped : (r.tokens ++ ts).tail = tokens ++ ts := by rw [htokens]; rfl
  change (g ()).run ⟨(r.tokens ++ ts).tail, r.anchors, r.handles, events⟩ = _
  rw [hskipped]
  exact hlong ts events hts

end ExtendsAt

/-! ## Single steps -/

section Single

variable {most : Nat}

theorem extends_count (n : Nat) : Extends most (Read.count n) (Read.count n) := by
  intro r a r' _ h
  obtain ⟨rfl, rfl⟩ := Prod.mk.inj (Except.ok.inj h)
  exact ⟨Nat.le_refl _, n, rfl, fun _ _ _ => rfl⟩

theorem extends_absentNode : Extends most Read.absentNode Read.absentNode :=
  Extends.bind (extends_count 1) fun _ => ExtendsOn.pure _

theorem extends_fail {α : Type} (expected : String) (y : Read α) :
    Extends most (Read.fail expected) y :=
  ExtendsOn.of_error fun _ => ⟨_, rfl⟩

theorem Extends.afterComma {α : Type} {x y : Read α} {first : Bool} {expected : String}
    (h : ∀ less, less + (if first then 0 else 1) = most → Extends less x y) :
    Extends most
      (if (!first) = true then
          Read.peek >>= fun next =>
            if next ≠ some .flowEntry then
              Read.fail expected >>= fun _ : PUnit => Read.skip >>= fun _ => x
            else Read.skip >>= fun _ => x
        else x)
      (if (!first) = true then
          Read.peek >>= fun next =>
            if next ≠ some .flowEntry then
              Read.fail expected >>= fun _ : PUnit => Read.skip >>= fun _ => y
            else Read.skip >>= fun _ => y
        else y) := by
  cases first with
  | true => exact h most rfl
  | false =>
      refine Extends.peek_bind fun next => ExtendsOn.ite (fun _ => ?_) fun hnext => ?_
      · exact ExtendsAt.of_extends (ExtendsOn.of_error fun _ => ⟨_, rfl⟩)
      · obtain rfl := Decidable.not_not.mp hnext
        exact ExtendsAt.skip_bind h

theorem extends_newAnchor (name : Text) :
    Extends most (Read.newAnchor name) (Read.newAnchor name) := by
  intro r a r' _ h
  obtain ⟨rfl, rfl⟩ := Prod.mk.inj (Except.ok.inj h)
  exact ⟨Nat.le_refl _, 0, rfl, fun _ _ _ => rfl⟩

theorem extends_anchorNumber (name : Text) :
    Extends most (Read.anchorNumber name) (Read.anchorNumber name) := by
  refine ExtendsOn.get_bind (fun _ _ _ => rfl) fun r => ?_
  split
  · exact ExtendsOn.pure _
  · exact ExtendsOn.of_error fun _ => ⟨_, rfl⟩

theorem extends_resolveTag (handle suffix : Text) :
    Extends most (Read.resolveTag handle suffix) (Read.resolveTag handle suffix) := by
  refine ExtendsOn.ite (fun _ => ExtendsOn.pure _) fun _ => ?_
  refine ExtendsOn.get_bind (fun _ _ _ => rfl) fun r => ?_
  split
  · exact ExtendsOn.pure _
  · exact ExtendsOn.of_error fun _ => ⟨_, rfl⟩

theorem extends_properties : Extends most Read.properties Read.properties := by
  refine Extends.peek_bind fun first => ?_
  split
  · next name =>
      refine ExtendsAt.skip_bind fun _ _ => Extends.peek_bind fun second => ?_
      split
      · next handle suffix =>
          refine ExtendsAt.skip_bind fun _ _ => ?_
          refine Extends.bind (extends_resolveTag handle suffix) fun _ => ?_
          exact Extends.bind (extends_newAnchor name) fun _ => ExtendsOn.pure _
      · exact ExtendsAt.of_extends (Extends.bind (extends_newAnchor name) fun _ => ExtendsOn.pure _)
  · next handle suffix =>
      refine ExtendsAt.skip_bind fun _ _ => Extends.peek_bind fun second => ?_
      split
      · next name =>
          refine ExtendsAt.skip_bind fun _ _ => ?_
          refine Extends.bind (extends_resolveTag handle suffix) fun _ => ?_
          exact Extends.bind (extends_newAnchor name) fun _ => ExtendsOn.pure _
      · exact ExtendsAt.of_extends
          (Extends.bind (extends_resolveTag handle suffix) fun _ => ExtendsOn.pure _)
  · exact ExtendsOn.pure _

end Single

/-! ## Nodes -/

/-- The key or the value of an entry of a block mapping. -/
def blockNode (fuel : Nat) : Read Node := do
  if endsBlockEntry (← Read.peek) then Read.absentNode else read true true fuel

def blockValue (fuel : Nat) (key : Node) : Read (Node × Node) := do
  match ← Read.peek with
  | some .value =>
    Read.skip
    return (key, ← blockNode fuel)
  | _ => return (key, ← Read.absentNode)

/-- An entry of a block mapping; the next token announces its key. -/
def blockEntry (fuel : Nat) : Read (Node × Node) := do
  Read.skip
  let key ← blockNode fuel
  blockValue fuel key

def flowPairValue (fuel : Nat) (key : Node) : Read (Node × Node) := do
  match ← Read.peek with
  | some .value =>
    Read.skip
    match ← Read.peek with
    | some .flowEntry | some .flowSequenceEnd => return (key, ← Read.absentNode)
    | _ => return (key, ← read false false fuel)
  | _ => return (key, ← Read.absentNode)

theorem bind_ite {α β : Type} {p : Prop} [Decidable p] (x y : Read α) (f : α → Read β) :
    (if p then x >>= f else y >>= f) = (if p then x else y) >>= f := by
  split <;> rfl

theorem readBlockEntries_succ (fuel : Nat) :
    readBlockEntries (fuel + 1) = (do
      match ← Read.peek with
      | some .key =>
        let entry ← blockEntry fuel
        return entry :: (← readBlockEntries fuel)
      | some .blockEnd =>
        Read.skip
        return []
      | _ => Read.fail "key") := by
  rw [readBlockEntries]
  refine bind_congr fun first => ?_
  rcases first with _ | token
  · rfl
  cases token
  case key =>
    simp only [blockEntry, blockValue, blockNode, bind_assoc]
    refine bind_congr fun _ => bind_congr fun next => ?_
    refine (bind_ite _ _ _).trans (bind_congr fun key => bind_congr fun colon => ?_)
    split
    · simp only [bind_assoc, pure_bind]
      exact bind_congr fun _ => bind_congr fun next => bind_ite _ _ _
    · simp only [bind_assoc, pure_bind]
  all_goals rfl

/-- Fuel for what is read with the fuel `n`: no less than that, or enough for
`most` tokens. -/
def Enough (most spare n m : Nat) : Prop :=
  n ≤ m ∨ 3 * most + spare ≤ m

/-- Every function of the reader, with the fuel `m` in the place of `n`. -/
structure ExtendsAll (n m : Nat) : Prop where
  read {most : Nat} (h : Enough most 2 n m) (block indentless : Bool) :
    Extends most (read block indentless n) (read block indentless m)
  blockItems {most : Nat} (h : Enough most 1 n m) :
    Extends most (readBlockItems n) (readBlockItems m)
  indentlessItems {most : Nat} (h : Enough most 1 n m) :
    Extends most (readIndentlessItems n) (readIndentlessItems m)
  blockEntries {most : Nat} (h : Enough most 1 n m) :
    Extends most (readBlockEntries n) (readBlockEntries m)
  flowItems {most : Nat} {first : Bool} (h : Enough most (if first then 3 else 1) n m) :
    Extends most (readFlowItems first n) (readFlowItems first m)
  flowPair {most : Nat} (h : Enough most 3 n m) : Extends most (readFlowPair n) (readFlowPair m)
  flowEntries {most : Nat} {first : Bool} (h : Enough most (if first then 3 else 1) n m) :
    Extends most (readFlowEntries first n) (readFlowEntries first m)

namespace ExtendsAll

theorem zero (m : Nat) : ExtendsAll 0 m := by
  constructor <;> intros <;> exact ExtendsOn.of_error fun _ => ⟨_, rfl⟩

variable {n m most : Nat} (h : ExtendsAll n m)

include h

theorem node (henough : Enough most 2 n m) : Extends most (blockNode n) (blockNode m) :=
  Extends.peek_bind fun _ =>
    ExtendsOn.ite (fun _ => ExtendsAt.of_extends extends_absentNode) fun _ =>
      ExtendsAt.of_extends (h.read henough true true)

theorem value (henough : Enough most 2 n m) (key : Node) :
    Extends most (blockValue n key) (blockValue m key) := by
  unfold blockValue
  refine Extends.peek_bind fun colon => ?_
  split
  · refine ExtendsAt.skip_bind fun less hless => ?_
    have hnode : Extends less (blockNode n) (blockNode m) :=
      h.node (henough.imp_right fun _ => by omega)
    exact Extends.bind hnode fun _ => ExtendsOn.pure _
  · exact ExtendsAt.of_extends (Extends.bind extends_absentNode fun _ => ExtendsOn.pure _)

theorem entry (henough : ∀ less, less + 1 = most → Enough less 2 n m) :
    ExtendsAt (some .key) most (blockEntry n) (blockEntry m) :=
  ExtendsAt.skip_bind fun less hless =>
    Extends.bind (h.node (henough less hless)) fun key => h.value (henough less hless) key

theorem afterKey {α : Type} (henough : Enough most 2 n m) {next : Option Token}
    {f g : Node → Read α} (hf : ∀ key, Extends most (f key) (g key)) :
    Extends most
      (match next with
        | some .value => Read.absentNode >>= f
        | some .flowEntry => Read.absentNode >>= f
        | some .flowMappingEnd => Read.absentNode >>= f
        | _ => Node.read false false n >>= f)
      (match next with
        | some .value => Read.absentNode >>= g
        | some .flowEntry => Read.absentNode >>= g
        | some .flowMappingEnd => Read.absentNode >>= g
        | _ => Node.read false false m >>= g) := by
  split
  · exact Extends.bind extends_absentNode hf
  · exact Extends.bind extends_absentNode hf
  · exact Extends.bind extends_absentNode hf
  · exact Extends.bind (h.read henough false false) hf

theorem succ_read (henough : Enough most 2 (n + 1) (m + 1)) (block indentless : Bool) :
    Extends most (Node.read block indentless (n + 1)) (Node.read block indentless (m + 1)) := by
  have hless : ∀ {less}, less + 1 = most → Enough less 3 n m := by
    intro less hless
    unfold Enough at henough ⊢
    omega
  have hsame : Enough most 1 n m := by
    unfold Enough at henough ⊢
    omega
  have habsent : ∀ p : Properties, Extends most
      (if (p.anchor.isSome || p.tag.isSome) = true then do
          Read.count 1
          return scalar p true []
        else Read.fail "node content")
      (if (p.anchor.isSome || p.tag.isSome) = true then do
          Read.count 1
          return scalar p true []
        else Read.fail "node content") := fun p =>
    ExtendsOn.ite (fun _ => Extends.bind (extends_count 1) fun _ => ExtendsOn.pure _) fun _ =>
      extends_fail _ _
  unfold Node.read
  refine Extends.peek_bind fun first => ?_
  split
  · refine ExtendsAt.skip_bind fun _ _ => Extends.bind (extends_count 1) fun _ => ?_
    exact Extends.bind (extends_anchorNumber _) fun _ => ExtendsOn.pure _
  · refine ExtendsAt.of_extends (Extends.bind extends_properties fun p => ?_)
    refine Extends.peek_bind fun next => ?_
    split
    · refine ExtendsAt.skip_bind fun _ _ => Extends.bind (extends_count 1) fun _ => ?_
      exact ExtendsOn.ite (fun _ => ExtendsOn.pure _) fun _ => ExtendsOn.pure _
    · refine ExtendsAt.skip_bind fun less hlt => Extends.bind (extends_count 2) fun _ => ?_
      exact Extends.bind (h.flowItems (hless hlt)) fun _ => ExtendsOn.pure _
    · refine ExtendsAt.skip_bind fun less hlt => Extends.bind (extends_count 2) fun _ => ?_
      exact Extends.bind (h.flowEntries (hless hlt)) fun _ => ExtendsOn.pure _
    · refine ExtendsOn.ite (fun _ => ExtendsAt.of_extends (extends_fail _ _)) fun _ => ?_
      refine ExtendsAt.skip_bind fun less hlt => Extends.bind (extends_count 2) fun _ => ?_
      have hitems : Extends less (readBlockItems n) (readBlockItems m) :=
        h.blockItems ((hless hlt).imp_right fun _ => by omega)
      exact Extends.bind hitems fun _ => ExtendsOn.pure _
    · refine ExtendsOn.ite (fun _ => ExtendsAt.of_extends (extends_fail _ _)) fun _ => ?_
      refine ExtendsAt.skip_bind fun less hlt => Extends.bind (extends_count 2) fun _ => ?_
      have hentries : Extends less (readBlockEntries n) (readBlockEntries m) :=
        h.blockEntries ((hless hlt).imp_right fun _ => by omega)
      exact Extends.bind hentries fun _ => ExtendsOn.pure _
    · refine ExtendsAt.of_extends (ExtendsOn.ite (fun _ => ?_) fun _ => habsent p)
      refine Extends.bind (extends_count 2) fun _ => ?_
      exact Extends.bind (h.indentlessItems hsame) fun _ => ExtendsOn.pure _
    · exact ExtendsAt.of_extends (habsent p)

theorem succ_blockItems (henough : Enough most 1 (n + 1) (m + 1)) :
    Extends most (readBlockItems (n + 1)) (readBlockItems (m + 1)) := by
  have hless : ∀ {less}, less + 1 = most → Enough less 2 n m ∧ Enough less 1 n m := by
    intro less hless
    unfold Enough at henough ⊢
    omega
  have hrest : ∀ {less}, less + 1 = most → ∀ item : Node, Extends less
      (do return item :: (← readBlockItems n)) (do return item :: (← readBlockItems m)) :=
    fun hlt _ => Extends.bind (h.blockItems (hless hlt).2) fun _ => ExtendsOn.pure _
  unfold readBlockItems
  refine Extends.peek_bind fun first => ?_
  split
  · refine ExtendsAt.skip_bind fun less hlt => Extends.peek_bind fun next => ?_
    refine ExtendsAt.of_extends ?_
    dsimp only
    split
    · exact Extends.bind extends_absentNode (hrest hlt)
    · exact Extends.bind extends_absentNode (hrest hlt)
    · exact Extends.bind (h.read (hless hlt).1 true false) (hrest hlt)
  · exact ExtendsAt.skip_bind fun _ _ => ExtendsOn.pure _
  · exact ExtendsAt.of_extends (extends_fail _ _)

theorem succ_indentlessItems (henough : Enough most 1 (n + 1) (m + 1)) :
    Extends most (readIndentlessItems (n + 1)) (readIndentlessItems (m + 1)) := by
  have hless : ∀ {less}, less + 1 = most → Enough less 2 n m ∧ Enough less 1 n m := by
    intro less hless
    unfold Enough at henough ⊢
    omega
  have hrest : ∀ {less}, less + 1 = most → ∀ item : Node, Extends less
      (do return item :: (← readIndentlessItems n))
      (do return item :: (← readIndentlessItems m)) :=
    fun hlt _ => Extends.bind (h.indentlessItems (hless hlt).2) fun _ => ExtendsOn.pure _
  unfold readIndentlessItems
  refine Extends.peek_bind fun first => ?_
  split
  · refine ExtendsAt.skip_bind fun less hlt => Extends.peek_bind fun next => ?_
    refine ExtendsAt.of_extends (ExtendsOn.ite (fun _ => ?_) fun _ => ?_)
    · exact Extends.bind extends_absentNode (hrest hlt)
    · exact Extends.bind (h.read (hless hlt).1 true false) (hrest hlt)
  · exact ExtendsAt.of_extends (ExtendsOn.pure _)

theorem succ_blockEntries (henough : Enough most 1 (n + 1) (m + 1)) :
    Extends most (readBlockEntries (n + 1)) (readBlockEntries (m + 1)) := by
  have hless : ∀ less, less + 1 = most → Enough less 2 n m ∧ Enough less 1 n m := by
    intro less hless
    unfold Enough at henough ⊢
    omega
  rw [readBlockEntries_succ, readBlockEntries_succ]
  refine Extends.peek_bind fun first => ?_
  split
  · simp only [blockEntry, bind_assoc]
    refine ExtendsAt.skip_bind fun less hlt => ?_
    obtain ⟨hnode, hentries⟩ := hless less hlt
    refine Extends.bind (h.node hnode) fun key => Extends.bind (h.value hnode key) fun entry => ?_
    exact Extends.bind (h.blockEntries hentries) fun _ => ExtendsOn.pure _
  · exact ExtendsAt.skip_bind fun _ _ => ExtendsOn.pure _
  · exact ExtendsAt.of_extends (extends_fail _ _)

theorem succ_flowItems {first : Bool}
    (henough : Enough most (if first then 3 else 1) (n + 1) (m + 1)) :
    Extends most (readFlowItems first (n + 1)) (readFlowItems first (m + 1)) := by
  unfold readFlowItems
  refine Extends.peek_bind fun next => ?_
  refine ExtendsOn.ite (fun hnext => ?_) fun _ => ?_
  · subst hnext
    exact ExtendsAt.skip_bind fun _ _ => ExtendsOn.pure _
  refine ExtendsAt.of_extends (Extends.afterComma fun less hless => ?_)
  have hitem : Enough less 2 n m := by
    unfold Enough at henough ⊢
    cases first <;> simp only [if_true, if_false, Bool.false_eq_true] at henough hless <;> omega
  have hrest : ∀ {fewer}, fewer ≤ less → ∀ item : Node, Extends fewer
      (do return item :: (← readFlowItems false n))
      (do return item :: (← readFlowItems false m)) := fun hfewer _ =>
    Extends.bind (h.flowItems (hitem.imp_right fun _ => by simp; omega)) fun _ => ExtendsOn.pure _
  refine Extends.peek_bind fun next => ?_
  split
  · exact ExtendsAt.skip_bind fun _ _ => ExtendsOn.pure _
  · refine ExtendsAt.skip_bind fun fewer hfewer => Extends.bind (extends_count 2) fun _ => ?_
    have hpair : Extends fewer (readFlowPair n) (readFlowPair m) :=
      h.flowPair (hitem.imp_right fun _ => by omega)
    exact Extends.bind hpair fun _ => hrest (by omega) _
  · exact ExtendsAt.of_extends
      (Extends.bind (h.read hitem false false) (hrest (Nat.le_refl less)))

theorem succ_flowPair (henough : Enough most 3 (n + 1) (m + 1)) :
    Extends most (readFlowPair (n + 1)) (readFlowPair (m + 1)) := by
  have hnode : ∀ {less}, less ≤ most → Enough less 2 n m := by
    intro less hless
    unfold Enough at henough ⊢
    omega
  have hvalue : ∀ {less}, less ≤ most → ∀ key : Node,
      Extends less (flowPairValue n key) (flowPairValue m key) := by
    intro less hless key
    unfold flowPairValue
    refine Extends.peek_bind fun colon => ?_
    split
    · refine ExtendsAt.skip_bind fun fewer hfewer => Extends.peek_bind fun behind => ?_
      refine ExtendsAt.of_extends ?_
      split
      · exact Extends.bind extends_absentNode fun _ => ExtendsOn.pure _
      · exact Extends.bind extends_absentNode fun _ => ExtendsOn.pure _
      · exact Extends.bind (h.read (hnode (by omega)) false false) fun _ => ExtendsOn.pure _
    · exact ExtendsAt.of_extends (Extends.bind extends_absentNode fun _ => ExtendsOn.pure _)
  have habsent : ∀ less, less + 1 = most → Extends less (Read.absentNode >>= flowPairValue n)
      (Read.absentNode >>= flowPairValue m) := fun less hless =>
    Extends.bind extends_absentNode (hvalue (by omega))
  unfold readFlowPair
  refine Extends.peek_bind fun next => ?_
  dsimp only
  split
  · exact ExtendsAt.skip_bind habsent
  · exact ExtendsAt.skip_bind habsent
  · exact ExtendsAt.skip_bind habsent
  · exact ExtendsAt.of_extends
      (Extends.bind (h.read (hnode (Nat.le_refl _)) false false) (hvalue (Nat.le_refl _)))

theorem succ_flowEntries {first : Bool}
    (henough : Enough most (if first then 3 else 1) (n + 1) (m + 1)) :
    Extends most (readFlowEntries first (n + 1)) (readFlowEntries first (m + 1)) := by
  unfold readFlowEntries
  refine Extends.peek_bind fun next => ?_
  refine ExtendsOn.ite (fun hnext => ?_) fun _ => ?_
  · subst hnext
    exact ExtendsAt.skip_bind fun _ _ => ExtendsOn.pure _
  refine ExtendsAt.of_extends (Extends.afterComma fun less hless => ?_)
  have hnode : ∀ {fewer}, fewer ≤ less → Enough fewer 2 n m := by
    intro fewer hfewer
    unfold Enough at henough ⊢
    cases first <;> simp only [if_true, if_false, Bool.false_eq_true] at henough hless <;> omega
  have hrest : ∀ {fewer}, fewer ≤ less → ∀ key value : Node, Extends fewer
      (do return (key, value) :: (← readFlowEntries false n))
      (do return (key, value) :: (← readFlowEntries false m)) := fun hfewer _ _ =>
    Extends.bind (h.flowEntries ((hnode hfewer).imp_right fun _ => by simp; omega)) fun _ =>
      ExtendsOn.pure _
  refine Extends.peek_bind fun next => ?_
  split
  · exact ExtendsAt.skip_bind fun _ _ => ExtendsOn.pure _
  · refine ExtendsAt.skip_bind fun fewer hfewer => Extends.peek_bind fun next => ?_
    refine ExtendsAt.of_extends (afterKey h (hnode (by omega)) fun key => ?_)
    refine Extends.peek_bind fun colon => ?_
    dsimp only
    split
    · refine ExtendsAt.skip_bind fun least hleast => Extends.peek_bind fun behind => ?_
      refine ExtendsAt.of_extends ?_
      split
      · exact Extends.bind extends_absentNode (hrest (by omega) key)
      · exact Extends.bind extends_absentNode (hrest (by omega) key)
      · exact Extends.bind (h.read (hnode (by omega)) false false) (hrest (by omega) key)
    · exact ExtendsAt.of_extends (Extends.bind extends_absentNode (hrest (by omega) key))
  · refine ExtendsAt.of_extends ?_
    exact Extends.bind (h.read (hnode (Nat.le_refl _)) false false) fun key =>
      Extends.bind extends_absentNode (hrest (Nat.le_refl _) key)

end ExtendsAll

/-- Other tokens behind and another amount of fuel that is enough do not change
what was read. -/
theorem extendsAll (n m : Nat) : ExtendsAll n m := by
  induction n generalizing m with
  | zero => exact ExtendsAll.zero m
  | succ n ih =>
      cases m with
      | zero =>
          have hnone : ∀ {most spare}, 0 < spare → ¬Enough most spare (n + 1) 0 := by
            intro most spare hspare h
            unfold Enough at h
            omega
          exact {
            read := fun h => absurd h (hnone (by decide))
            blockItems := fun h => absurd h (hnone (by decide))
            indentlessItems := fun h => absurd h (hnone (by decide))
            blockEntries := fun h => absurd h (hnone (by decide))
            flowItems := fun {_ first} h => absurd h (hnone (by cases first <;> decide))
            flowPair := fun h => absurd h (hnone (by decide))
            flowEntries := fun {_ first} h => absurd h (hnone (by cases first <;> decide)) }
      | succ m =>
          exact {
            read := (ih m).succ_read
            blockItems := (ih m).succ_blockItems
            indentlessItems := (ih m).succ_indentlessItems
            blockEntries := (ih m).succ_blockEntries
            flowItems := (ih m).succ_flowItems
            flowPair := (ih m).succ_flowPair
            flowEntries := (ih m).succ_flowEntries }

end Node

end Marginalia.Yaml
