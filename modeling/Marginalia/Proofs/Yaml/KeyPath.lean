import Marginalia.Proofs.Yaml.Consumed
import Marginalia.Proofs.Yaml.EntryValue
import Marginalia.Proofs.Yaml.Extended

/-!
# The value behind a path of keys

The tokens before a value lead to it through block mappings: past entries that
are complete, and into the entry of each key of the path.  The reader of nodes
then comes to the value with the tokens behind it still to be read, so another
value there changes the nodes at that place and no others.

The mappings on the way, and the keys of the path, have neither an anchor nor a
tag.  Behind an anchor another value would show at other places, too, wherever
an alias repeats the mapping.
-/

namespace Marginalia.Yaml

namespace Node

/-- A scalar without an anchor and without a tag. -/
def word (bare : Bool) (text : Text) : Node :=
  .scalar ⟨none, none⟩ bare text

/-- The tokens lead from the start of the entries of a block mapping to the
value of the last key of the path; `fuel` is what the reader needs for the
entries.  A mapping inside begins right behind its key, without an anchor or a
tag. -/
inductive Leads : List Text → Nat → Reader → Prop
  | here {name : Text} {bare : Bool} {text : Text} {r : Reader} {fuel : Nat}
      (hkey : Value.ofScalar false none bare text = .ok (.str name))
      (htokens : r.tokens = [.key, .scalar bare text, .value]) : Leads [name] (fuel + 2) r
  | inside {name : Text} {path : List Text} {bare : Bool} {text : Text} {tokens : List Token}
      {r : Reader} {fuel : Nat} (hkey : Value.ofScalar false none bare text = .ok (.str name))
      (htokens : r.tokens = .key :: .scalar bare text :: .value :: .blockMappingStart :: tokens)
      (h : Leads path fuel { r with tokens := tokens, events := r.events + 3 }) :
      Leads (name :: path) (fuel + 2) r
  | past {path : List Text} {entry : Node × Node} {r r' : Reader} {fuel : Nat}
      (hkey : r.tokens.head? = some .key) (hentry : (blockEntry fuel).run r = .ok (entry, r'))
      (h : Leads path fuel r') : Leads path (fuel + 1) r

/-- Two lists of entries that differ in the value behind a path of keys: `old`
in the first one and `new` in the second one. -/
inductive DifferAt (old new : Node) : List Text → List (Node × Node) → List (Node × Node) → Prop
  | here {name : Text} {bare : Bool} {text : Text} (rest : List (Node × Node))
      (hkey : Value.ofScalar false none bare text = .ok (.str name)) :
      DifferAt old new [name] ((word bare text, old) :: rest) ((word bare text, new) :: rest)
  | inside {name : Text} {path : List Text} {bare : Bool} {text : Text}
      {es es' : List (Node × Node)} (rest : List (Node × Node))
      (hkey : Value.ofScalar false none bare text = .ok (.str name))
      (h : DifferAt old new path es es') :
      DifferAt old new (name :: path) ((word bare text, .mapping ⟨none, none⟩ es) :: rest)
        ((word bare text, .mapping ⟨none, none⟩ es') :: rest)
  | past {path : List Text} {es es' : List (Node × Node)} (entry : Node × Node)
      (h : DifferAt old new path es es') : DifferAt old new path (entry :: es) (entry :: es')

/-! ## Steps of the reader -/

section Steps

variable {r : Reader}

theorem run_peek (r : Reader) : Read.peek.run r = .ok (r.tokens.head?, r) := rfl

theorem run_skip (r : Reader) : Read.skip.run r = .ok ((), { r with tokens := r.tokens.tail }) :=
  rfl

theorem run_bind_of_eq_ok {α β : Type} {x : Read α} {f : α → Read β} {a : α} {r' : Reader}
    (h : x.run r = .ok (a, r')) : (x >>= f).run r = (f a).run r' := by
  rw [StateT.run_bind, h]
  rfl

theorem run_readBlockEntries_eq_ok_iff {fuel : Nat} {es : List (Node × Node)} {r' : Reader}
    (hr : r.tokens.head? = some .key) :
    (readBlockEntries (fuel + 1)).run r = .ok (es, r') ↔
      ∃ entry m rest, (blockEntry fuel).run r = .ok (entry, m) ∧
        (readBlockEntries fuel).run m = .ok (rest, r') ∧ es = entry :: rest := by
  have hrun : (readBlockEntries (fuel + 1)).run r =
      (blockEntry fuel).run r >>= fun p =>
        (readBlockEntries fuel).run p.2 >>= fun q => .ok (p.1 :: q.1, q.2) := by
    rw [readBlockEntries_succ, StateT.run_bind, run_peek, hr]
    rfl
  rw [hrun, bind_eq_ok_iff]
  constructor
  · rintro ⟨⟨entry, m⟩, hentry, h⟩
    obtain ⟨⟨rest, _⟩, hrest, h⟩ := bind_eq_ok_iff.mp h
    obtain ⟨rfl, rfl⟩ := Prod.mk.inj (Except.ok.inj h)
    exact ⟨entry, m, rest, hentry, hrest, rfl⟩
  · rintro ⟨entry, m, rest, hentry, hrest, rfl⟩
    exact ⟨(entry, m), hentry, bind_eq_ok_iff.mpr ⟨(rest, r'), hrest, rfl⟩⟩

theorem run_read_word {fuel : Nat} {block indentless bare : Bool} {text : Text}
    {tokens : List Token} (hr : r.tokens = .scalar bare text :: tokens) :
    (read block indentless (fuel + 1)).run r =
      .ok (word bare text, { r with tokens := tokens, events := r.events + 1 }) := by
  obtain ⟨_, anchors, handles, events⟩ := r
  obtain rfl := hr
  unfold read
  rfl

theorem run_blockNode_word {fuel : Nat} {bare : Bool} {text : Text} {tokens : List Token}
    (hr : r.tokens = .scalar bare text :: tokens) :
    (blockNode (fuel + 1)).run r =
      .ok (word bare text, { r with tokens := tokens, events := r.events + 1 }) := by
  have hread : (blockNode (fuel + 1)).run r = (read true true (fuel + 1)).run r := by
    rw [blockNode, StateT.run_bind, run_peek, hr]
    rfl
  rw [hread, run_read_word hr]

theorem run_blockNode_absent {fuel : Nat} (hr : endsBlockEntry r.tokens.head? = true) :
    (blockNode fuel).run r = .ok (absent, { r with events := r.events + 1 }) := by
  rw [blockNode, StateT.run_bind, run_peek]
  simp only [Bind.bind, Except.bind, hr, if_true]
  rfl

theorem run_read_mapping_eq_ok_iff {fuel : Nat} {indentless : Bool} {tokens : List Token} {n : Node}
    {r' : Reader} (hr : r.tokens = .blockMappingStart :: tokens) :
    (read true indentless (fuel + 1)).run r = .ok (n, r') ↔
      ∃ es, (readBlockEntries fuel).run { r with tokens := tokens, events := r.events + 2 } =
        .ok (es, r') ∧ n = .mapping ⟨none, none⟩ es := by
  have hread : (read true indentless (fuel + 1)).run r =
      (readBlockEntries fuel).run { r with tokens := tokens, events := r.events + 2 } >>= fun p =>
        .ok (.mapping ⟨none, none⟩ p.1, p.2) := by
    obtain ⟨_, anchors, handles, events⟩ := r
    obtain rfl := hr
    unfold read
    rfl
  rw [hread, bind_eq_ok_iff]
  constructor
  · rintro ⟨⟨es, _⟩, hes, h⟩
    obtain ⟨rfl, rfl⟩ := Prod.mk.inj (Except.ok.inj h)
    exact ⟨es, hes, rfl⟩
  · rintro ⟨es, hes, rfl⟩
    exact ⟨(es, r'), hes, rfl⟩

theorem run_blockNode_of_mapping {fuel : Nat} {tokens : List Token}
    (hr : r.tokens = .blockMappingStart :: tokens) :
    (blockNode fuel).run r = (read true true fuel).run r := by
  rw [blockNode, StateT.run_bind, run_peek, hr]
  rfl

theorem run_blockEntry {fuel : Nat} {bare : Bool} {text : Text} {tokens : List Token}
    (hr : r.tokens = .key :: .scalar bare text :: .value :: tokens) :
    (blockEntry (fuel + 1)).run r =
      (blockNode (fuel + 1)).run { r with tokens := tokens, events := r.events + 1 } >>= fun p =>
        .ok ((word bare text, p.1), p.2) := by
  obtain ⟨_, anchors, handles, events⟩ := r
  obtain rfl := hr
  have hkey : (blockNode (fuel + 1)).run
      ⟨.scalar bare text :: .value :: tokens, anchors, handles, events⟩ =
        .ok (word bare text, ⟨.value :: tokens, anchors, handles, events + 1⟩) :=
    run_blockNode_word rfl
  have hvalue : ∀ key : Node,
      (blockValue (fuel + 1) key).run ⟨.value :: tokens, anchors, handles, events + 1⟩ =
        (blockNode (fuel + 1)).run ⟨tokens, anchors, handles, events + 1⟩ >>= fun p =>
          .ok ((key, p.1), p.2) := fun _ => rfl
  rw [blockEntry, run_bind_of_eq_ok (run_skip _)]
  dsimp only [List.tail_cons]
  rw [run_bind_of_eq_ok hkey]
  exact hvalue (word bare text)

theorem Leads.past_word {path : List Text} {bare bare' : Bool} {text text' : Text}
    {tokens : List Token} {fuel : Nat}
    (htokens : r.tokens = .key :: .scalar bare text :: .value :: .scalar bare' text' :: tokens)
    (h : Leads path (fuel + 1) { r with tokens := tokens, events := r.events + 2 }) :
    Leads path (fuel + 2) r := by
  have hhead : r.tokens.head? = some .key := by rw [htokens]; rfl
  have hentry : (blockEntry (fuel + 1)).run r =
      .ok ((word bare text, word bare' text'),
        { r with tokens := tokens, events := r.events + 2 }) := by
    rw [run_blockEntry htokens, run_blockNode_word rfl]
    rfl
  exact Leads.past hhead hentry h

theorem run_readBlockEntries_word_eq_ok_iff {fuel : Nat} {bare : Bool} {text : Text}
    {tokens : List Token} {es : List (Node × Node)} {r' : Reader}
    (hr : r.tokens = .key :: .scalar bare text :: .value :: tokens) :
    (readBlockEntries (fuel + 2)).run r = .ok (es, r') ↔
      ∃ value m rest,
        (blockNode (fuel + 1)).run { r with tokens := tokens, events := r.events + 1 } =
          .ok (value, m) ∧
        (readBlockEntries (fuel + 1)).run m = .ok (rest, r') ∧
        es = (word bare text, value) :: rest := by
  have hhead : r.tokens.head? = some .key := by rw [hr]; rfl
  rw [run_readBlockEntries_eq_ok_iff hhead, run_blockEntry hr]
  constructor
  · rintro ⟨entry, m, rest, hentry, hrest, rfl⟩
    obtain ⟨⟨value, _⟩, hvalue, h⟩ := bind_eq_ok_iff.mp hentry
    obtain ⟨rfl, rfl⟩ := Prod.mk.inj (Except.ok.inj h)
    exact ⟨value, _, rest, hvalue, hrest, rfl⟩
  · rintro ⟨value, m, rest, hvalue, hrest, rfl⟩
    exact ⟨_, m, rest, bind_eq_ok_iff.mpr ⟨(value, m), hvalue, rfl⟩, hrest, rfl⟩

end Steps

/-! ## Another value -/

/-- The tokens `ts` before `rest` are the node `n` in the place of a value, with
`size` events. -/
def IsValue (n : Node) (size : Nat) (ts rest : List Token) : Prop :=
  ∀ (fuel : Nat) (r : Reader), 3 * ts.length + 1 ≤ fuel → r.tokens = ts ++ rest →
    (blockNode fuel).run r = .ok (n, { r with tokens := rest, events := r.events + size })

/-- Whatever value is read of the tokens `ts` before `rest`, it takes these
tokens and has `size` events and no anchors. -/
def FillsValue (size : Nat) (ts rest : List Token) : Prop :=
  ∀ (fuel : Nat) (r : Reader) (n : Node) (r' : Reader), r.tokens = ts ++ rest →
    (blockNode fuel).run r = .ok (n, r') →
      r' = { r with tokens := rest, events := r.events + size } ∧ n.anchored = []

theorem Leads.tokens_ne_nil {path : List Text} {n : Nat} {r : Reader} (h : Leads path n r) :
    r.tokens ≠ [] := by
  cases h with
  | here _ htokens => simp [htokens]
  | inside _ htokens => simp [htokens]
  | past hkey =>
      intro hnil
      simp [hnil] at hkey

theorem isValue_word (bare : Bool) (text : Text) (rest : List Token) :
    IsValue (word bare text) 1 [.scalar bare text] rest := by
  intro fuel r hfuel hr
  obtain ⟨fuel, rfl⟩ := Nat.exists_eq_add_of_le' hfuel
  exact run_blockNode_word hr

theorem Leads.past_value {path : List Text} {bare : Bool} {text : Text} {n : Node} {size fuel : Nat}
    {ts tokens : List Token} {r : Reader} (hvalue : IsValue n size ts tokens)
    (htokens : r.tokens = .key :: .scalar bare text :: .value :: (ts ++ tokens))
    (hfuel : 3 * ts.length ≤ fuel)
    (h : Leads path (fuel + 1) { r with tokens := tokens, events := r.events + 1 + size }) :
    Leads path (fuel + 2) r := by
  have hhead : r.tokens.head? = some .key := by rw [htokens]; rfl
  have hentry : (blockEntry (fuel + 1)).run r =
      .ok ((word bare text, n), { r with tokens := tokens, events := r.events + 1 + size }) := by
    rw [run_blockEntry htokens, hvalue _ _ (Nat.succ_le_succ hfuel) rfl]
    rfl
  exact Leads.past hhead hentry h

theorem fillsValue_word (bare : Bool) (text : Text) (rest : List Token) :
    FillsValue 1 [.scalar bare text] rest := by
  intro fuel r n r' hr hread
  cases fuel with
  | zero =>
      rw [blockNode, StateT.run_bind, run_peek, hr] at hread
      simp [Bind.bind, Except.bind, endsBlockEntry, read] at hread
  | succ fuel =>
      rw [run_blockNode_word hr] at hread
      obtain ⟨rfl, rfl⟩ := Prod.mk.inj (Except.ok.inj hread)
      exact ⟨rfl, rfl⟩

theorem fillsValue_absent {rest : List Token} (h : endsBlockEntry rest.head? = true) :
    FillsValue 1 [] rest := by
  rintro fuel ⟨_, anchors, handles, events⟩ n r' rfl hread
  rw [run_blockNode_absent h] at hread
  obtain ⟨rfl, rfl⟩ := Prod.mk.inj (Except.ok.inj hread)
  exact ⟨rfl, rfl⟩

/-- A value is read in one way only. -/
theorem IsValue.fillsValue {n : Node} {size : Nat} {ts rest : List Token}
    (h : IsValue n size ts rest) (hanchored : n.anchored = []) : FillsValue size ts rest := by
  intro fuel r n' r' hr hread
  let more := fuel + (3 * ts.length + 1)
  have hextends : Extends r.tokens.length (blockNode fuel) (blockNode more) :=
    (extendsAll fuel more).node (Or.inl (Nat.le_add_right fuel _))
  obtain ⟨-, events, hevents, hmore⟩ := hextends r n' r' (Nat.le_refl _) hread
  have hsame := hmore [] r.events fun _ => rfl
  have hbehind : (r'.append []).after (r.events + events) = r' := by
    rw [← hevents]
    simp [Reader.append, Reader.after]
  have hbefore : (r.append []).after r.events = r := by simp [Reader.append, Reader.after]
  rw [hbehind, hbefore, h more r (Nat.le_add_left _ fuel) hr] at hsame
  obtain ⟨rfl, rfl⟩ := Prod.mk.inj (Except.ok.inj hsame)
  exact ⟨rfl, hanchored⟩

/-- Entries are followed by the end of their mapping, and each begins with a
key. -/
theorem endsBlockEntry_of_readBlockEntries {fuel : Nat} {r r' : Reader} {es : List (Node × Node)}
    (h : (readBlockEntries fuel).run r = .ok (es, r')) : endsBlockEntry r.tokens.head? = true := by
  cases fuel with
  | zero => cases h
  | succ fuel =>
      rw [readBlockEntries_succ, run_bind_of_eq_ok (run_peek r)] at h
      split at h
      · next hnext => rw [hnext]; rfl
      · next hnext => rw [hnext]; rfl
      · cases h

/-- Entries do not depend on the fuel, if there is enough of it, and on the
number of events before them. -/
theorem exists_run_readBlockEntries {fuel fuel' most : Nat} {r r' : Reader}
    {es : List (Node × Node)} (h : (readBlockEntries fuel).run r = .ok (es, r'))
    (hmost : r.tokens.length ≤ most) (henough : 3 * most + 1 ≤ fuel') :
    r'.tokens.length ≤ r.tokens.length ∧ ∃ n, r'.events = r.events + n ∧
      ∀ events, (readBlockEntries fuel').run (r.after events) =
        .ok (es, r'.after (events + n)) := by
  obtain ⟨hleft, n, hevents, hsame⟩ :=
    (extendsAll fuel fuel').blockEntries (Or.inr henough) r es r' hmost h
  refine ⟨hleft, n, hevents, fun events => ?_⟩
  simpa [Reader.append] using hsame [] events fun _ => rfl

/-- An entry that leaves tokens is read in the same way with more fuel and more
tokens behind. -/
theorem run_blockEntry_append {fuel : Nat} {r m : Reader} {entry : Node × Node}
    (hkey : r.tokens.head? = some .key) (hentry : (blockEntry fuel).run r = .ok (entry, m))
    (hne : m.tokens ≠ []) (d : Nat) (us : List Token) :
    (blockEntry (fuel + d)).run (r.append us) = .ok (entry, m.append us) := by
  obtain ⟨-, k, hevents, hsame⟩ := (extendsAll fuel (fuel + d)).entry
    (fun _ _ => Or.inl (Nat.le_add_right fuel d)) r entry m ⟨hkey, Nat.le_refl _⟩ hentry
  have hlong := hsame us r.events fun h => absurd h hne
  rw [← hevents] at hlong
  exact hlong

variable {new : Node} {size size' : Nat} {ts ts' rest : List Token}

/-- Another value behind the path: the entries differ in it. -/
theorem exists_readBlockEntries_of_leads {path : List Text} {n : Nat} {r : Reader}
    (h : Leads path n r) (hold : FillsValue size ts rest)
    (hnew : endsBlockEntry rest.head? = true → IsValue new size' ts' rest) {d e : Nat}
    (he : 3 * (ts' ++ rest).length + 2 ≤ e) {es : List (Node × Node)} {r' : Reader}
    (hread : (readBlockEntries (n + d)).run (r.append (ts ++ rest)) = .ok (es, r')) :
    ∃ old es' events, old.anchored = [] ∧ r'.tokens.length ≤ rest.length ∧
      r'.events = events + size ∧
      (readBlockEntries (n + e)).run (r.append (ts' ++ rest)) =
        .ok (es', r'.after (events + size')) ∧
      DifferAt old new path es es' := by
  rw [List.length_append] at he
  induction h generalizing es r' with
  | @here name bare text r fuel hkey htokens =>
      have hlead : ∀ us, (r.append us).tokens = .key :: .scalar bare text :: .value :: us := by
        intro us
        rw [Reader.append, htokens]
        rfl
      rw [Nat.add_right_comm, run_readBlockEntries_word_eq_ok_iff (hlead _)] at hread
      obtain ⟨old, m, after, hvalue, hafter, rfl⟩ := hread
      obtain ⟨rfl, hanchored⟩ := hold _ _ _ _ rfl hvalue
      have hends : endsBlockEntry rest.head? = true := endsBlockEntry_of_readBlockEntries hafter
      have henough : 3 * rest.length + 1 ≤ fuel + e + 1 := by omega
      obtain ⟨hleft, k, hevents, hafter'⟩ :=
        exists_run_readBlockEntries hafter (Nat.le_refl _) henough
      refine ⟨old, (word bare text, new) :: after, r.events + 1 + k, hanchored, hleft, ?_, ?_,
        DifferAt.here after hkey⟩
      · rw [hevents, Nat.add_right_comm]
        rfl
      · rw [Nat.add_right_comm, run_readBlockEntries_word_eq_ok_iff (hlead _)]
        have hvalue' := hnew hends (fuel + e + 1)
          { r with tokens := ts' ++ rest, events := r.events + 1 } (by omega) rfl
        have hentries := hafter' (r.events + 1 + size')
        rw [Nat.add_right_comm (r.events + 1)] at hentries
        exact ⟨new, _, after, hvalue', hentries, rfl⟩
  | @inside name path bare text tokens r fuel hkey htokens h ih =>
      have hlead : ∀ us, (r.append us).tokens =
          .key :: .scalar bare text :: .value :: .blockMappingStart :: (tokens ++ us) := by
        intro us
        rw [Reader.append, htokens]
        rfl
      rw [Nat.add_right_comm, run_readBlockEntries_word_eq_ok_iff (hlead _)] at hread
      obtain ⟨_, m, after, hvalue, hafter, rfl⟩ := hread
      rw [run_blockNode_of_mapping rfl, run_read_mapping_eq_ok_iff rfl] at hvalue
      obtain ⟨inner, hinner, rfl⟩ := hvalue
      obtain ⟨old, inner', events, hanchored, hleft, hevents, hinner', hdiffer⟩ := ih hinner
      have henough : 3 * rest.length + 1 ≤ fuel + e + 1 := by omega
      obtain ⟨hleft', k, hevents', hafter'⟩ := exists_run_readBlockEntries hafter hleft henough
      refine ⟨old, (word bare text, .mapping ⟨none, none⟩ inner') :: after, events + k, hanchored,
        Nat.le_trans hleft' hleft, ?_, ?_, DifferAt.inside after hkey hdiffer⟩
      · rw [hevents', hevents, Nat.add_right_comm]
      · rw [Nat.add_right_comm, run_readBlockEntries_word_eq_ok_iff (hlead _)]
        have hentries := hafter' (events + size')
        rw [Nat.add_right_comm events] at hentries
        refine ⟨_, m.after (events + size'), after, ?_, hentries, rfl⟩
        rw [run_blockNode_of_mapping rfl, run_read_mapping_eq_ok_iff rfl]
        exact ⟨inner', hinner', rfl⟩
  | @past path entry r m fuel hkey hentry h ih =>
      have hhead : ∀ us, (r.append us).tokens.head? = some .key := by
        intro us
        rw [Reader.append, List.head?_append, hkey]
        rfl
      -- the entry is over before the path, so it is the first one of both
      -- readings
      have hfirst := run_blockEntry_append hkey hentry h.tokens_ne_nil
      rw [Nat.add_right_comm, run_readBlockEntries_eq_ok_iff (hhead _)] at hread
      obtain ⟨_, _, after, hvalue, hafter, rfl⟩ := hread
      rw [hfirst] at hvalue
      obtain ⟨rfl, rfl⟩ := Prod.mk.inj (Except.ok.inj hvalue)
      obtain ⟨old, after', events, hanchored, hleft, hevents, hafter', hdiffer⟩ := ih hafter
      refine ⟨old, entry :: after', events, hanchored, hleft, hevents, ?_,
        DifferAt.past entry hdiffer⟩
      rw [Nat.add_right_comm, run_readBlockEntries_eq_ok_iff (hhead _)]
      exact ⟨entry, _, after', hfirst _ _, hafter', rfl⟩

/-- The tokens at the start of a document lead to the value behind a path of
keys. -/
def LeadsTo (path : List Text) (lead : List Token) : Prop :=
  ∃ tokens, (lead = .blockMappingStart :: tokens ∨
      lead = .documentStart :: .blockMappingStart :: tokens) ∧
    Leads path (3 * tokens.length + 3) ⟨tokens, [], defaultHandles, 2⟩

theorem leadsTo_first {module key : Text} (hmodule : Value.ofPlain module = .ok (.str module))
    (hkey : Value.ofPlain key = .ok (.str key)) :
    LeadsTo [module, key] [.blockMappingStart, .key, .scalar true module, .value,
      .blockMappingStart, .key, .scalar true key, .value] := by
  have hbare : ∀ {name : Text}, Value.ofPlain name = .ok (.str name) →
      Value.ofScalar false none true name = .ok (.str name) := id
  exact ⟨_, Or.inl rfl, Leads.inside (hbare hmodule) rfl (Leads.here (hbare hkey) rfl)⟩

theorem readDocument_of_leadsTo {path : List Text} {lead : List Token} (h : LeadsTo path lead) :
    ∃ tokens, Leads path (3 * tokens.length + 3) ⟨tokens, [], defaultHandles, 2⟩ ∧
      ∀ us, readDocument (lead ++ us) =
        readRoot defaultHandles (.blockMappingStart :: (tokens ++ us)) := by
  obtain ⟨tokens, rfl | rfl, h⟩ := h
  · exact ⟨tokens, h, fun _ => rfl⟩
  · exact ⟨tokens, h, fun _ => rfl⟩

theorem readRoot_mapping_eq_ok_iff {handles : List (Text × Text)} {tokens left : List Token}
    {d : Document} :
    readRoot handles (.blockMappingStart :: tokens) = .ok (d, left) ↔
      ∃ es r, (readBlockEntries (3 * tokens.length + 5)).run ⟨tokens, [], handles, 2⟩ =
        .ok (es, r) ∧ d = ⟨.mapping ⟨none, none⟩ es, r.events⟩ ∧ left = r.tokens := by
  have hfuel : 3 * (Token.blockMappingStart :: tokens).length + 3 = 3 * tokens.length + 5 + 1 := by
    rw [List.length_cons]
    omega
  rw [readRoot, hfuel, bind_eq_ok_iff]
  constructor
  · rintro ⟨⟨root, r⟩, hroot, h⟩
    obtain ⟨es, hes, rfl⟩ := (run_read_mapping_eq_ok_iff rfl).mp hroot
    obtain ⟨rfl, rfl⟩ := Prod.mk.inj (Except.ok.inj h)
    exact ⟨es, r, hes, rfl, rfl⟩
  · rintro ⟨es, r, hes, rfl, rfl⟩
    exact ⟨(_, r), (run_read_mapping_eq_ok_iff rfl).mpr ⟨es, hes, rfl⟩, rfl⟩

/-- A document with another value behind a path is read with the same nodes
elsewhere. -/
theorem exists_readDocument_of_leadsTo {path : List Text} {lead : List Token}
    (h : LeadsTo path lead) (hold : FillsValue size ts rest)
    (hnew : endsBlockEntry rest.head? = true → IsValue new size' ts' rest) {d : Document}
    {left : List Token} (hread : readDocument (lead ++ (ts ++ rest)) = .ok (d, left)) :
    ∃ old es es' events, old.anchored = [] ∧
      d = ⟨.mapping ⟨none, none⟩ es, events + size⟩ ∧ DifferAt old new path es es' ∧
      readDocument (lead ++ (ts' ++ rest)) =
        .ok (⟨.mapping ⟨none, none⟩ es', events + size'⟩, left) := by
  obtain ⟨tokens, hleads, hdocument⟩ := readDocument_of_leadsTo h
  have hfuel : ∀ us : List Token,
      3 * (tokens ++ us).length + 5 = 3 * tokens.length + 3 + (3 * us.length + 2) := by
    intro us
    rw [List.length_append]
    omega
  rw [hdocument, readRoot_mapping_eq_ok_iff, hfuel] at hread
  obtain ⟨es, r, hes, rfl, rfl⟩ := hread
  obtain ⟨old, es', events, hanchored, -, hevents, hes', hdiffer⟩ :=
    exists_readBlockEntries_of_leads hleads hold hnew (Nat.le_refl _) hes
  refine ⟨old, es, es', events, hanchored, by rw [hevents], hdiffer, ?_⟩
  rw [hdocument, readRoot_mapping_eq_ok_iff, hfuel]
  exact ⟨es', _, hes', rfl, rfl⟩

end Node

end Marginalia.Yaml
