import Marginalia.Yaml.Node

/-!
# The first entry of a mapping

The tokens `key: value` make a mapping, and the node behind the colon is spelled
in the tokens there: no name is known yet that an alias could refer to.
-/

namespace Marginalia.Yaml

/-! ## Steps of a reading -/

/-- A step that gives only results with a property, if it gives any. -/
def Gives {σ α : Type} (P : α → σ → Prop) (x : StateT σ (Except Error) α) (r : σ) : Prop :=
  ∀ a r', x.run r = .ok (a, r') → P a r'

section Gives

variable {σ α β : Type} {P : α → σ → Prop} {Q : β → σ → Prop}
  {x : StateT σ (Except Error) α} {r : σ}

theorem Gives.of_run {a : α} {r' : σ} (h : x.run r = .ok (a, r')) (hP : P a r') : Gives P x r := by
  intro b s hb
  rw [h] at hb
  obtain ⟨rfl, rfl⟩ := Prod.mk.inj (Except.ok.inj hb)
  exact hP

theorem Gives.of_error {e : Error} (h : x.run r = .error e) : Gives P x r := by
  intro b s hb
  rw [h] at hb
  simp at hb

theorem Gives.bind {f : α → StateT σ (Except Error) β} (hx : Gives P x r)
    (hf : ∀ a r', P a r' → Gives Q (f a) r') : Gives Q (x >>= f) r := by
  intro b s hb
  rw [StateT.run_bind] at hb
  cases hrun : x.run r with
  | error e =>
      rw [hrun] at hb
      simp [Bind.bind, Except.bind] at hb
  | ok p =>
      rw [hrun] at hb
      exact hf p.1 p.2 (hx p.1 p.2 hrun) b s hb

theorem Gives.mapM {γ : Type} {R : β → Prop} {f : γ → StateT σ (Except Error) β} {cs : List γ}
    (hf : ∀ c ∈ cs, ∀ r, Gives (fun b _ => R b) (f c) r) (r : σ) :
    Gives (fun bs _ => ∀ b ∈ bs, R b) (cs.mapM f) r := by
  induction cs generalizing r with
  | nil => exact Gives.of_run rfl (by simp)
  | cons c cs ih =>
      rw [List.mapM_cons]
      refine (hf c (List.mem_cons_self ..) r).bind fun b r' hb => ?_
      refine (ih (fun d hd => hf d (List.mem_cons_of_mem c hd)) r').bind fun bs r'' hbs => ?_
      exact Gives.of_run rfl (List.forall_mem_cons.mpr ⟨hb, hbs⟩)

theorem Gives.any : Gives (fun _ _ => True) x r :=
  fun _ _ _ => trivial

theorem gives_pure {a : α} (h : P a r) : Gives P (pure a) r :=
  Gives.of_run rfl h

theorem gives_lift {y : Except Error α} (h : ∀ a, y = .ok a → P a r) :
    Gives P (liftM y : StateT σ (Except Error) α) r := by
  cases y with
  | error e => exact Gives.of_error rfl
  | ok a => exact Gives.of_run rfl (h a rfl)

end Gives

namespace Node

theorem gives_peek (r : Reader) : Gives (fun a r' => a = r.tokens.head? ∧ r = r') Read.peek r :=
  Gives.of_run rfl ⟨rfl, rfl⟩

theorem gives_get (r : Reader) : Gives (fun a r' => a = r ∧ r = r') get r :=
  Gives.of_run rfl ⟨rfl, rfl⟩

/-- A step that leaves only tokens of `ts` when no others were left before. -/
def Keeps (ts : List Token) {α : Type} (x : Read α) : Prop :=
  ∀ r : Reader, (∀ t ∈ r.tokens, t ∈ ts) → Gives (fun _ r' => ∀ t ∈ r'.tokens, t ∈ ts) x r

section Keeps

variable {ts : List Token} {α β : Type}

theorem Keeps.bind {x : Read α} {f : α → Read β} (hx : Keeps ts x) (hf : ∀ a, Keeps ts (f a)) :
    Keeps ts (x >>= f) :=
  fun r hr => (hx r hr).bind fun a r' hr' => hf a r' hr'

theorem keeps_pure (a : α) : Keeps ts (pure a) :=
  fun _ hr => gives_pure hr

theorem keeps_peek : Keeps ts Read.peek :=
  fun _ hr => Gives.of_run rfl hr

theorem keeps_skip : Keeps ts Read.skip :=
  fun _ hr => Gives.of_run rfl fun t ht => hr t (List.mem_of_mem_tail ht)

theorem keeps_newAnchor (name : Text) : Keeps ts (Read.newAnchor name) :=
  fun _ hr => Gives.of_run rfl hr

theorem keeps_resolveTag (handle suffix : Text) : Keeps ts (Read.resolveTag handle suffix) := by
  intro r hr
  unfold Read.resolveTag
  split
  · exact gives_pure hr
  · refine Gives.bind (gives_get r) ?_
    rintro _ _ ⟨rfl, rfl⟩
    split
    · exact gives_pure hr
    · exact Gives.of_error rfl

theorem keeps_properties : Keeps ts Read.properties := by
  unfold Read.properties
  refine keeps_peek.bind fun first => ?_
  split
  · next name =>
      refine keeps_skip.bind fun _ => keeps_peek.bind fun second => ?_
      split
      · next handle suffix =>
          refine keeps_skip.bind fun _ => (keeps_resolveTag handle suffix).bind fun _ => ?_
          exact (keeps_newAnchor name).bind fun _ => keeps_pure _
      · exact (keeps_newAnchor name).bind fun _ => keeps_pure _
  · next handle suffix =>
      refine keeps_skip.bind fun _ => keeps_peek.bind fun second => ?_
      split
      · next name =>
          refine keeps_skip.bind fun _ => (keeps_resolveTag handle suffix).bind fun _ => ?_
          exact (keeps_newAnchor name).bind fun _ => keeps_pure _
      · exact (keeps_resolveTag handle suffix).bind fun _ => keeps_pure _
  · exact keeps_pure _

end Keeps

/-! ## A node before any anchor -/

/-- The text of a scalar is empty or a token among `ts`; an alias is none. -/
def SpelledIn (ts : List Token) : Node → Prop
  | aliasTo _ => False
  | scalar _ bare text => text = [] ∨ Token.scalar bare text ∈ ts
  | sequence .. => True
  | mapping .. => True

/-- Before any anchor a node that is read stands among the tokens. -/
theorem spelledIn_read (block indentless : Bool) (fuel : Nat) {r : Reader} (hr : r.anchors = []) :
    Gives (fun n _ => n.SpelledIn r.tokens) (Node.read block indentless fuel) r := by
  have hsequence : ∀ {p r'} {x : Read (List Node)},
      Gives (fun n _ => SpelledIn r.tokens n) (do return sequence p (← x)) r' :=
    Gives.any.bind fun _ _ _ => gives_pure trivial
  have hmapping : ∀ {p r'} {x : Read (List (Node × Node))},
      Gives (fun n _ => SpelledIn r.tokens n) (do return mapping p (← x)) r' :=
    Gives.any.bind fun _ _ _ => gives_pure trivial
  have hempty : ∀ {p : Properties} {r'}, Gives (fun n _ => SpelledIn r.tokens n)
      (if (p.anchor.isSome || p.tag.isSome) = true then do
          Read.count 1
          return scalar p true []
        else Read.fail "node content") r' := by
    intro p r'
    split
    · exact Gives.any.bind fun _ _ _ => gives_pure (Or.inl rfl)
    · exact Gives.of_error rfl
  cases fuel with
  | zero => exact Gives.of_error rfl
  | succ fuel =>
    unfold Node.read
    refine Gives.bind (gives_peek r) ?_
    rintro _ _ ⟨rfl, rfl⟩
    split
    · next name _ =>
        -- no name is known yet
        refine Gives.of_error (e := .unknownAnchor name) ?_
        obtain ⟨tokens, anchors, handles, events⟩ := r
        obtain rfl : anchors = [] := hr
        rfl
    · refine Gives.bind (keeps_properties r fun _ ht => ht) ?_
      intro p r₁ h₁
      refine Gives.bind (gives_peek r₁) ?_
      rintro _ _ ⟨rfl, rfl⟩
      split
      · next bare text hscalar =>
          have hmem : Token.scalar bare text ∈ r.tokens := h₁ _ (List.mem_of_mem_head? hscalar)
          refine Gives.any.bind fun _ _ _ => Gives.any.bind fun _ _ _ => ?_
          split
          · exact gives_pure (Or.inr hmem)
          · exact gives_pure (Or.inr hmem)
      · exact Gives.any.bind fun _ _ _ => Gives.any.bind fun _ _ _ => hsequence
      · exact Gives.any.bind fun _ _ _ => Gives.any.bind fun _ _ _ => hmapping
      · split
        · exact Gives.of_error rfl
        · exact Gives.any.bind fun _ _ _ => Gives.any.bind fun _ _ _ => hsequence
      · split
        · exact Gives.of_error rfl
        · exact Gives.any.bind fun _ _ _ => Gives.any.bind fun _ _ _ => hmapping
      · split
        · exact Gives.any.bind fun _ _ _ => hsequence
        · exact hempty
      · exact hempty

/-- The value behind the first key of a mapping is spelled in the tokens behind
its colon. -/
theorem gives_readBlockEntries (fuel : Nat) (k : Text) (ts : List Token)
    (handles : List (Text × Text)) (events : Nat) :
    Gives (fun es _ => ∃ v es', es = (scalar ⟨none, none⟩ true k, v) :: es' ∧ v.SpelledIn ts)
      (readBlockEntries (fuel + 2))
      ⟨.key :: .scalar true k :: .value :: ts, [], handles, events⟩ := by
  let entry : Node := scalar ⟨none, none⟩ true k
  have hvalue : ∀ x : Read Node, Gives (fun v _ => v.SpelledIn ts) x ⟨ts, [], handles, events + 1⟩ →
      Gives (fun es _ => ∃ v es', es = (entry, v) :: es' ∧ v.SpelledIn ts)
        (do let v ← x; return (entry, v) :: (← readBlockEntries (fuel + 1)))
        ⟨ts, [], handles, events + 1⟩ := by
    intro x hx
    refine hx.bind fun v _ hv => Gives.any.bind fun es' _ _ => ?_
    exact gives_pure ⟨v, es', rfl, hv⟩
  have hcases : Gives (fun es _ => ∃ v es', es = (entry, v) :: es' ∧ v.SpelledIn ts)
      (if endsBlockEntry ts.head? then do
          let v ← Read.absentNode
          return (entry, v) :: (← readBlockEntries (fuel + 1))
        else do
          let v ← Node.read true true (fuel + 1)
          return (entry, v) :: (← readBlockEntries (fuel + 1)))
      ⟨ts, [], handles, events + 1⟩ := by
    split
    · exact hvalue _ (Gives.of_run rfl (Or.inl rfl))
    · exact hvalue _ (spelledIn_read true true (fuel + 1) rfl)
  exact hcases

theorem readDocument_spelledIn {k : Text} {ts : List Token} {d : Document} {rest : List Token}
    (h : readDocument (.blockMappingStart :: .key :: .scalar true k :: .value :: ts) =
      .ok (d, rest)) :
    ∃ v es, d.root = mapping ⟨none, none⟩ ((scalar ⟨none, none⟩ true k, v) :: es) ∧
      v.SpelledIn ts := by
  let tokens : List Token := .blockMappingStart :: .key :: .scalar true k :: .value :: ts
  obtain ⟨fuel, hfuel⟩ : ∃ fuel, 3 * tokens.length + 3 = fuel + 3 := ⟨_, rfl⟩
  have hroot : readDocument tokens =
      ((readBlockEntries (fuel + 2)).run
        ⟨.key :: .scalar true k :: .value :: ts, [], defaultHandles, 2⟩).map
        fun (es, r) => (⟨mapping ⟨none, none⟩ es, r.events⟩, r.tokens) := by
    have hread : (Node.read true false (fuel + 3)).run ⟨tokens, [], defaultHandles, 0⟩ =
        ((readBlockEntries (fuel + 2)).run
          ⟨.key :: .scalar true k :: .value :: ts, [], defaultHandles, 2⟩).map
          fun (es, r) => (mapping ⟨none, none⟩ es, r) := rfl
    have hdocument : readDocument tokens = readRoot defaultHandles tokens := rfl
    rw [hdocument, readRoot, hfuel, hread]
    cases (readBlockEntries (fuel + 2)).run _ with
    | error e => rfl
    | ok p => rfl
  rw [hroot] at h
  cases hentries : (readBlockEntries (fuel + 2)).run
      ⟨.key :: .scalar true k :: .value :: ts, [], defaultHandles, 2⟩ with
  | error e =>
      rw [hentries] at h
      simp [Except.map] at h
  | ok p =>
      rw [hentries] at h
      obtain ⟨v, es, hes, hv⟩ := gives_readBlockEntries fuel k ts defaultHandles 2 p.1 p.2 hentries
      obtain ⟨rfl, -⟩ := Prod.mk.inj (Except.ok.inj h)
      exact ⟨v, es, congrArg (mapping ⟨none, none⟩) hes, hv⟩

end Node

end Marginalia.Yaml
