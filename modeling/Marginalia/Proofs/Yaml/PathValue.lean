import Marginalia.Proofs.Yaml.Aliases
import Marginalia.Proofs.Yaml.KeyPath
import Marginalia.Yaml.Lookup

/-!
# The values of two documents that differ at a path

When the nodes of two documents differ in one node behind a path of keys, so do
their values.  The keys are the same, so both or neither have a key twice, and
the path leads to the one value in the first document and to the other one in
the second.  All other entries have the same values, as long as the second
document has aliases enough.
-/

namespace Marginalia.Yaml

namespace Node

variable {old new : Node} {path : List Text} {es es' : List (Node × Node)}

/-- Neither the two nodes nor the mappings around them have an anchor. -/
theorem anchoredEntries_of_differAt (hold : old.anchored = []) (hnew : new.anchored = [])
    (h : DifferAt old new path es es') : anchoredEntries es = anchoredEntries es' := by
  induction h with
  | here rest hkey => simp [anchoredEntries, anchored, word, hold, hnew]
  | inside rest hkey h ih => simp [anchoredEntries, anchored, word, ih]
  | past entry h ih => rw [anchoredEntries, anchoredEntries, ih]

end Node

namespace Value

open Node (DifferAt word)

/-- Two lists of entries that differ in the value behind a path of keys, in
which no key comes twice. -/
inductive DifferAt (old new : Value) :
    List Text → List (Value × Value) → List (Value × Value) → Prop
  | here {name : Text} (rest : List (Value × Value)) :
      DifferAt old new [name] ((str name, old) :: rest) ((str name, new) :: rest)
  | inside {name : Text} {path : List Text} {vs vs' : List (Value × Value)}
      (rest : List (Value × Value)) (hdistinct : ofEntries.distinct vs = true)
      (h : DifferAt old new path vs vs') :
      DifferAt old new (name :: path) ((str name, map vs) :: rest) ((str name, map vs') :: rest)
  | past {path : List Text} {vs vs' : List (Value × Value)} (entry : Value × Value)
      (h : DifferAt old new path vs vs') : DifferAt old new path (entry :: vs) (entry :: vs')

namespace DifferAt

variable {old new : Value} {path : List Text} {vs vs' : List (Value × Value)}

theorem map_fst_eq (h : DifferAt old new path vs vs') : vs.map Prod.fst = vs'.map Prod.fst := by
  induction h with
  | here rest => rfl
  | inside rest hdistinct h ih => rfl
  | past entry h ih => rw [List.map_cons, List.map_cons, ih]

end DifferAt

/-! ## Keys -/

theorem distinct_congr {vs vs' : List (Value × Value)} (h : vs.map Prod.fst = vs'.map Prod.fst) :
    ofEntries.distinct vs = ofEntries.distinct vs' := by
  induction vs generalizing vs' with
  | nil =>
      obtain rfl : vs' = [] := by simpa using h.symm
      rfl
  | cons v vs ih =>
      cases vs' with
      | nil => simp at h
      | cons v' vs' =>
          obtain ⟨hkey, hkeys⟩ := List.cons.inj h
          have hany : ∀ k : Value, ∀ es : List (Value × Value),
              es.any (fun e => agree k e.1) = (es.map Prod.fst).any (agree k) := by
            intro k es
            rw [List.any_map]
            rfl
          obtain ⟨k, a⟩ := v
          obtain ⟨k', a'⟩ := v'
          obtain rfl : k = k' := hkey
          rw [ofEntries.distinct, ofEntries.distinct, hany, hany, hkeys, ih hkeys]

theorem ofEntries_eq_ok_iff {vs : List (Value × Value)} {v : Value} :
    ofEntries vs = .ok v ↔ ofEntries.distinct vs = true ∧ v = map vs := by
  unfold ofEntries
  split
  · next hdistinct =>
      simp only [Except.ok.injEq, hdistinct, true_and]
      exact eq_comm
  · next hdistinct => simp [hdistinct]

/-! ## Steps -/

section Steps

variable {anchors : Anchors} {left n m : Nat}

theorem run_mapM_cons_eq_ok_iff {σ α β : Type} {f : α → StateT σ (Except Error) β} {a : α}
    {as : List α} {bs : List β} {s s' : σ} :
    ((a :: as).mapM f).run s = .ok (bs, s') ↔
      ∃ b t rest, (f a).run s = .ok (b, t) ∧ (as.mapM f).run t = .ok (rest, s') ∧
        bs = b :: rest := by
  rw [List.mapM_cons, StateT.run_bind, bind_eq_ok_iff]
  constructor
  · rintro ⟨⟨b, t⟩, hb, h⟩
    rw [StateT.run_bind] at h
    obtain ⟨⟨rest, _⟩, hrest, h⟩ := bind_eq_ok_iff.mp h
    obtain ⟨rfl, rfl⟩ := Prod.mk.inj (Except.ok.inj h)
    exact ⟨b, t, rest, hb, hrest, rfl⟩
  · rintro ⟨b, t, rest, hb, hrest, rfl⟩
    refine ⟨(b, t), hb, ?_⟩
    rw [StateT.run_bind]
    exact bind_eq_ok_iff.mpr ⟨(rest, s'), hrest, rfl⟩

theorem run_ofEntry_word_eq_ok_iff {name : Text} {bare : Bool} {text : Text} {value : Node}
    {e : Value × Value} (hkey : ofScalar false none bare text = .ok (str name)) :
    (ofEntry anchors left (word bare text, value)).run n = .ok (e, m) ↔
      ∃ v, (ofNode anchors left false value).run n = .ok (v, m) ∧ e = (str name, v) := by
  have hword : (ofNode anchors left false (word bare text)).run n = .ok (str name, n) := by
    rw [word, run_ofNode_scalar, hkey]
    rfl
  rw [ofEntry, StateT.run_bind, hword, bind_eq_ok_iff]
  constructor
  · rintro ⟨_, hsame, h⟩
    obtain rfl := Except.ok.inj hsame
    rw [StateT.run_bind] at h
    obtain ⟨⟨v, _⟩, hv, h⟩ := bind_eq_ok_iff.mp h
    obtain ⟨rfl, rfl⟩ := Prod.mk.inj (Except.ok.inj h)
    exact ⟨v, hv, rfl⟩
  · rintro ⟨v, hv, rfl⟩
    refine ⟨_, rfl, ?_⟩
    rw [StateT.run_bind]
    exact bind_eq_ok_iff.mpr ⟨(v, m), hv, rfl⟩

theorem run_ofNode_mapping_eq_ok_iff {es : List (Node × Node)} {v : Value} :
    (ofNode anchors left false (.mapping ⟨none, none⟩ es)).run n = .ok (v, m) ↔
      ∃ inner vs, left = inner + 1 ∧ (es.mapM (ofEntry anchors inner)).run n = .ok (vs, m) ∧
        ofEntries.distinct vs = true ∧ v = map vs := by
  cases left with
  | zero =>
      have hdeep : (ofNode anchors 0 false (.mapping ⟨none, none⟩ es)).run n = .error .tooDeep := by
        unfold ofNode
        rfl
      rw [hdeep]
      simp
  | succ inner =>
      have hlift : ∀ vs m, (liftM (ofEntries vs) : StateT Nat (Except Error) Value).run m =
          ofEntries vs >>= fun v => .ok (v, m) := fun _ _ => rfl
      rw [ofNode_mapping, StateT.run_bind, bind_eq_ok_iff]
      constructor
      · rintro ⟨⟨vs, _⟩, hvs, h⟩
        rw [hlift] at h
        obtain ⟨_, hv, h⟩ := bind_eq_ok_iff.mp h
        obtain ⟨rfl, rfl⟩ := Prod.mk.inj (Except.ok.inj h)
        obtain ⟨hdistinct, hmap⟩ := ofEntries_eq_ok_iff.mp hv
        exact ⟨inner, vs, rfl, hvs, hdistinct, hmap⟩
      · rintro ⟨_, vs, hinner, hvs, hdistinct, rfl⟩
        obtain rfl := Nat.succ.inj hinner
        refine ⟨(vs, m), hvs, ?_⟩
        rw [hlift]
        exact bind_eq_ok_iff.mpr ⟨map vs, ofEntries_eq_ok_iff.mpr ⟨hdistinct, rfl⟩, rfl⟩

end Steps

/-! ## The value behind the path -/

/-- A node has the value `v` wherever collections may still be nested `levels`
deep. -/
def Means (n : Node) (levels : Nat) (v : Value) : Prop :=
  ∀ (a : Anchors) (left k : Nat), levels ≤ left → (ofNode a left false n).run k = .ok (v, k)

theorem means_word {bare : Bool} {text : Text} {v : Value}
    (h : ofScalar false none bare text = .ok v) : Means (word bare text) 0 v := by
  intro a left k _
  rw [word, run_ofNode_scalar, h]
  rfl

variable {old new : Node} {path : List Text} {levels : Nat} {value : Value}

/-- Entries that differ in one node have values that differ in one place. -/
theorem exists_differAt_of_run {es es' : List (Node × Node)} (h : Node.DifferAt old new path es es')
    (hnew : Means new levels value) {a b : Anchors} (hnodes : a.nodes = b.nodes)
    {left n n' m : Nat} (hlevels : levels ≤ left + 1 - path.length) (hroom : NoMoreRoom a b n n')
    {vs : List (Value × Value)} (hvs : (es.mapM (ofEntry a left)).run n = .ok (vs, m)) :
    ∃ before vs' m', DifferAt before value path vs vs' ∧
      (es'.mapM (ofEntry b left)).run n' = .ok (vs', m') ∧ NoMoreRoom a b m m' := by
  have hentry : ∀ left e, Eases a b (ofEntry a left e) (ofEntry b left e) := fun left e =>
    Eases.bind (eases_ofNode hnodes left false e.1) fun _ =>
      Eases.bind (eases_ofNode hnodes left false e.2) fun _ => Eases.pure _
  induction h generalizing left n n' m vs with
  | @here name keyBare keyText rest hkey =>
      obtain ⟨_, k, after, hfirst, hafter, rfl⟩ := run_mapM_cons_eq_ok_iff.mp hvs
      obtain ⟨before, hbefore, rfl⟩ := (run_ofEntry_word_eq_ok_iff hkey).mp hfirst
      obtain ⟨hle, -⟩ := eases_ofNode hnodes left false old n before k hbefore
      have hvalue := hnew b left n' (by simpa using hlevels)
      have hroom' : NoMoreRoom a b k n' := by
        unfold NoMoreRoom at hroom ⊢
        omega
      obtain ⟨-, hrest⟩ := Eases.mapM (hentry left) rest k after m hafter
      obtain ⟨m', hafter', hm'⟩ := hrest n' hroom'
      have hfirst' := (run_ofEntry_word_eq_ok_iff hkey).mpr ⟨value, hvalue, rfl⟩
      exact ⟨before, (str name, value) :: after, m', DifferAt.here after,
        run_mapM_cons_eq_ok_iff.mpr ⟨_, n', after, hfirst', hafter', rfl⟩, hm'⟩
  | @inside name path keyBare keyText es es' rest hkey h ih =>
      obtain ⟨_, k, after, hfirst, hafter, rfl⟩ := run_mapM_cons_eq_ok_iff.mp hvs
      obtain ⟨_, hinner, rfl⟩ := (run_ofEntry_word_eq_ok_iff hkey).mp hfirst
      obtain ⟨inner, ws, rfl, hws, hdistinct, rfl⟩ := run_ofNode_mapping_eq_ok_iff.mp hinner
      rw [List.length_cons] at hlevels
      obtain ⟨before, ws', k', hdiffer, hws', hk'⟩ := ih (by omega) hroom hws
      obtain ⟨-, hrest⟩ := Eases.mapM (hentry (inner + 1)) rest k after m hafter
      obtain ⟨m', hafter', hm'⟩ := hrest k' hk'
      refine ⟨before, (str name, map ws') :: after, m', DifferAt.inside after hdistinct hdiffer,
        ?_, hm'⟩
      rw [distinct_congr hdiffer.map_fst_eq] at hdistinct
      have hinner' := run_ofNode_mapping_eq_ok_iff.mpr ⟨inner, ws', rfl, hws', hdistinct, rfl⟩
      have hfirst' := (run_ofEntry_word_eq_ok_iff hkey).mpr ⟨map ws', hinner', rfl⟩
      exact run_mapM_cons_eq_ok_iff.mpr ⟨_, k', after, hfirst', hafter', rfl⟩
  | past entry h ih =>
      obtain ⟨v, k, after, hfirst, hafter, rfl⟩ := run_mapM_cons_eq_ok_iff.mp hvs
      obtain ⟨-, hsame⟩ := hentry left entry n v k hfirst
      obtain ⟨k', hfirst', hk'⟩ := hsame n' hroom
      obtain ⟨before, after', m', hdiffer, hafter', hm'⟩ := ih hlevels hk' hafter
      refine ⟨before, v :: after', m', DifferAt.past v hdiffer, ?_, hm'⟩
      exact run_mapM_cons_eq_ok_iff.mpr ⟨v, k', after', hfirst', hafter', rfl⟩

theorem ofDocument_of_ofTokens {ts left : List Token} {d : Node.Document} {v : Value}
    (h : ofTokens ts = .ok v) (hread : Node.readDocument ts = .ok (d, left)) :
    ofDocument d = .ok v := by
  obtain ⟨p, hp, h⟩ := bind_eq_ok_iff.mp h
  obtain rfl := Except.ok.inj (hread.symm.trans hp)
  dsimp only at h
  split at h
  · exact h
  · cases h

theorem ofText_of_ofTokens {t : Text} {ts left : List Token} {d : Node.Document} {v : Value}
    (htokens : Token.ofText t = .ok ts) (h : ofTokens ts = .ok v)
    (hread : Node.readDocument ts = .ok (d, left)) : Node.ofText t = .ok d := by
  obtain ⟨p, hp, h⟩ := bind_eq_ok_iff.mp h
  obtain rfl := Except.ok.inj (hread.symm.trans hp)
  dsimp only at h
  split at h
  · next hleft =>
      refine bind_eq_ok_iff.mpr ⟨ts, htokens, bind_eq_ok_iff.mpr ⟨_, hread, ?_⟩⟩
      dsimp only
      rw [if_pos hleft]
      rfl
  · cases h

/-- More events allow more aliases. -/
theorem ofDocument_of_le {root : Node} {events events' : Nat} {v : Value}
    (h : ofDocument ⟨root, events⟩ = .ok v) (hle : events ≤ events') :
    ofDocument ⟨root, events'⟩ = .ok v := by
  obtain ⟨m, hrun⟩ := exists_run_of_ofDocument_eq_ok h
  let a : Anchors := ⟨root.anchored, 100 * events⟩
  let b : Anchors := ⟨root.anchored, 100 * events'⟩
  have hnodes : a.nodes = b.nodes := rfl
  obtain ⟨-, hroom⟩ := eases_ofNode hnodes nestingLimit false root 0 v m hrun
  have hmore : NoMoreRoom a b 0 0 := by
    unfold NoMoreRoom
    dsimp only [a, b]
    omega
  obtain ⟨m', hrun', -⟩ := hroom 0 hmore
  rw [ofDocument]
  exact bind_eq_ok_iff.mpr ⟨(v, m'), hrun', rfl⟩

/-- The value of a document with another node behind a path and with no fewer
events. -/
theorem exists_ofDocument_of_differAt {es es' : List (Node × Node)} {events events' : Nat}
    {root : Value} (hdiffer : Node.DifferAt old new path es es') (hold : old.anchored = [])
    (hnew : new.anchored = []) (hmeans : Means new levels value)
    (hlevels : levels ≤ nestingLimit - path.length) (hle : events ≤ events')
    (hroot : ofDocument ⟨.mapping ⟨none, none⟩ es, events⟩ = .ok root) :
    ∃ before vs vs', root = map vs ∧ ofEntries.distinct vs = true ∧
      DifferAt before value path vs vs' ∧
      ofDocument ⟨.mapping ⟨none, none⟩ es', events'⟩ = .ok (map vs') := by
  obtain ⟨m, hrun⟩ := exists_run_of_ofDocument_eq_ok hroot
  obtain ⟨inner, vs, hinner, hvs, hdistinct, rfl⟩ := run_ofNode_mapping_eq_ok_iff.mp hrun
  have hentries := Node.anchoredEntries_of_differAt hold hnew hdiffer
  have hroom : NoMoreRoom ⟨(Node.mapping ⟨none, none⟩ es).anchored, 100 * events⟩
      ⟨(Node.mapping ⟨none, none⟩ es').anchored, 100 * events'⟩ 0 0 := by
    unfold NoMoreRoom
    dsimp only
    omega
  have hnodes : (Node.mapping ⟨none, none⟩ es).anchored =
      (Node.mapping ⟨none, none⟩ es').anchored := by
    rw [Node.anchored, Node.anchored, hentries]
    rfl
  obtain ⟨before, vs', m', hvalues, hvs', -⟩ :=
    exists_differAt_of_run hdiffer hmeans hnodes (by omega) hroom hvs
  refine ⟨before, vs, vs', rfl, hdistinct, hvalues, ?_⟩
  rw [distinct_congr hvalues.map_fst_eq] at hdistinct
  have hrun' := run_ofNode_mapping_eq_ok_iff.mpr ⟨inner, vs', hinner, hvs', hdistinct, rfl⟩
  rw [ofDocument]
  exact bind_eq_ok_iff.mpr ⟨(map vs', m'), hrun', rfl⟩

variable {size size' : Nat} {lead ts ts' rest : List Token} {root : Value}

/-- A text has one document when its tokens have nothing but ends of documents
behind one. -/
theorem ofTokens_eq_ok_iff {ts : List Token} {v : Value} :
    ofTokens ts = .ok v ↔ ∃ d left, Node.readDocument ts = .ok (d, left) ∧
      (left.dropWhile (· == .documentEnd)).isEmpty = true ∧ ofDocument d = .ok v := by
  unfold ofTokens
  constructor
  · intro h
    obtain ⟨⟨d, left⟩, hread, h⟩ := bind_eq_ok_iff.mp h
    dsimp only at h
    split at h
    · next hleft => exact ⟨d, left, hread, hleft, h⟩
    · cases h
  · rintro ⟨d, left, hread, hleft, h⟩
    refine bind_eq_ok_iff.mpr ⟨(d, left), hread, ?_⟩
    dsimp only
    rwa [if_pos hleft]

/-- The value of the document with another value behind a path.  With fewer
events than before the document must not have too many aliases for them. -/
theorem exists_ofTokens_of_leadsTo (hlead : Node.LeadsTo path lead)
    (hold : Node.FillsValue size ts rest)
    (hnew : Node.endsBlockEntry rest.head? = true → Node.IsValue new size' ts' rest)
    (hanchored : new.anchored = []) (hmeans : Means new levels value)
    (hlevels : levels ≤ nestingLimit - path.length)
    (hfew : ∀ d left, Node.readDocument (lead ++ (ts ++ rest)) = .ok (d, left) →
      ∃ v, ofDocument ⟨d.root, d.events - (size - size')⟩ = .ok v)
    (hroot : ofTokens (lead ++ (ts ++ rest)) = .ok root) :
    ∃ old vs vs', root = map vs ∧ ofEntries.distinct vs = true ∧ DifferAt old value path vs vs' ∧
      ofTokens (lead ++ (ts' ++ rest)) = .ok (map vs') := by
  obtain ⟨d, left, hread, hleft, hroot⟩ := ofTokens_eq_ok_iff.mp hroot
  obtain ⟨old, es, es', events, holdAnchored, rfl, hdiffer, hread'⟩ :=
    Node.exists_readDocument_of_leadsTo hlead hold hnew hread
  obtain ⟨v, hv⟩ := hfew _ _ hread
  -- without the events that are lost the value is the same
  obtain rfl : v = root := by
    have hsame := ofDocument_of_le hv (Nat.sub_le _ _)
    rw [hroot] at hsame
    exact (Except.ok.inj hsame).symm
  obtain ⟨before, vs, vs', rfl, hdistinct, hvalues, hdocument⟩ :=
    exists_ofDocument_of_differAt hdiffer holdAnchored hanchored hmeans hlevels
      (show events + size - (size - size') ≤ events + size' by omega) hv
  exact ⟨before, vs, vs', rfl, hdistinct, hvalues,
    ofTokens_eq_ok_iff.mpr ⟨_, left, hread', hleft, hdocument⟩⟩

/-! ## Looking up -/

theorem get?_map_cons_self (name : Text) (v : Value) (vs : List (Value × Value)) :
    (map ((str name, v) :: vs)).get? name = some v := by
  simp [get?, untagged]

theorem get?_map_cons_of_ne {name : Text} {k : Value} (hk : k ≠ str name) (v : Value)
    (vs : List (Value × Value)) : (map ((k, v) :: vs)).get? name = (map vs).get? name := by
  cases k with
  | str s =>
      have hs : s ≠ name := fun h => hk (congrArg str h)
      simp [get?, untagged, hs]
  | _ => simp [get?, untagged]

theorem ne_of_distinct {k v : Value} {vs : List (Value × Value)} {name : Text}
    (h : ofEntries.distinct ((k, v) :: vs) = true) (hname : str name ∈ vs.map Prod.fst) :
    k ≠ str name := by
  rintro rfl
  obtain ⟨e, he, hkey⟩ := List.mem_map.mp hname
  have hagree : agree (str name) e.1 = true := by
    rw [hkey]
    simp [agree, agreeTo, depth]
  rw [ofEntries.distinct, Bool.and_eq_true, Bool.not_eq_true', List.any_eq_false] at h
  exact h.1 e he hagree

namespace DifferAt

variable {old new : Value} {vs vs' : List (Value × Value)} {name : Text}

theorem path_ne_nil {names : List Text} (h : DifferAt old new names vs vs') : names ≠ [] := by
  induction h with
  | here rest => exact List.cons_ne_nil _ _
  | inside rest hdistinct h ih => exact List.cons_ne_nil _ _
  | past entry h ih => exact ih

theorem mem_keys (h : DifferAt old new (name :: path) vs vs') : str name ∈ vs'.map Prod.fst := by
  generalize hpath : name :: path = names at h
  induction h with
  | here rest =>
      obtain ⟨rfl, -⟩ := List.cons.inj hpath
      exact List.mem_cons_self ..
  | inside rest hdistinct h ih =>
      obtain ⟨rfl, -⟩ := List.cons.inj hpath
      exact List.mem_cons_self ..
  | past entry h ih => exact List.mem_cons_of_mem _ (ih hpath)

theorem foldl_get?_eq (h : DifferAt old new (name :: path) vs vs')
    (hdistinct : ofEntries.distinct vs' = true) :
    path.foldl (fun v? segment => v?.bind (·.get? segment)) ((map vs').get? name) = some new := by
  generalize hpath : name :: path = names at h
  induction h generalizing name path with
  | here rest =>
      obtain ⟨rfl, rfl⟩ := List.cons.inj hpath
      exact get?_map_cons_self _ _ _
  | @inside name' path' ws ws' rest hinner h ih =>
      obtain ⟨rfl, rfl⟩ := List.cons.inj hpath
      rw [get?_map_cons_self]
      rw [distinct_congr h.map_fst_eq] at hinner
      cases path with
      | nil => exact absurd rfl h.path_ne_nil
      | cons segment path => exact ih hinner rfl
  | @past names ws ws' entry h ih =>
      subst hpath
      have hne := ne_of_distinct hdistinct h.mem_keys
      rw [get?_map_cons_of_ne hne]
      rw [ofEntries.distinct, Bool.and_eq_true] at hdistinct
      exact ih hdistinct.2 rfl

theorem get?_eq_of_ne (h : DifferAt old new (name :: path) vs vs') {other : Text}
    (hother : other ≠ name) : (map vs').get? other = (map vs).get? other := by
  generalize hpath : name :: path = names at h
  induction h with
  | here rest =>
      obtain ⟨rfl, -⟩ := List.cons.inj hpath
      have hne : str name ≠ str other := fun h => hother (str.inj h).symm
      rw [get?_map_cons_of_ne hne, get?_map_cons_of_ne hne]
  | inside rest hdistinct h ih =>
      obtain ⟨rfl, -⟩ := List.cons.inj hpath
      have hne : str name ≠ str other := fun h => hother (str.inj h).symm
      rw [get?_map_cons_of_ne hne, get?_map_cons_of_ne hne]
  | past entry h ih =>
      obtain ⟨k, v⟩ := entry
      by_cases hk : k = str other
      · rw [hk, get?_map_cons_self, get?_map_cons_self]
      · rw [get?_map_cons_of_ne hk, get?_map_cons_of_ne hk, ih hpath]

theorem foldl_get?_eq_of_apart {names other : List Text} (h : DifferAt old new names vs vs')
    (hinside : ¬names <+: other) (haround : ¬other <+: names) :
    other.foldl (fun v? segment => v?.bind (·.get? segment)) (some (map vs')) =
      other.foldl (fun v? segment => v?.bind (·.get? segment)) (some (map vs)) := by
  induction h generalizing other with
  | @here name rest =>
      cases other with
      | nil => exact absurd (List.nil_prefix) haround
      | cons segment other =>
          have hne : str name ≠ str segment := by
            intro heq
            rw [str.inj heq, List.cons_prefix_cons] at hinside
            exact hinside ⟨rfl, List.nil_prefix⟩
          simp only [List.foldl_cons, Option.bind_some, get?_map_cons_of_ne hne]
  | @inside name names ws ws' rest hdistinct h ih =>
      cases other with
      | nil => exact absurd (List.nil_prefix) haround
      | cons segment other =>
          by_cases hname : name = segment
          · subst hname
            simp only [List.cons_prefix_cons, true_and] at hinside haround
            simp only [List.foldl_cons, Option.bind_some, get?_map_cons_self]
            exact ih hinside haround
          · have hne : str name ≠ str segment := fun heq => hname (str.inj heq)
            simp only [List.foldl_cons, Option.bind_some, get?_map_cons_of_ne hne]
  | @past names ws ws' entry h ih =>
      obtain ⟨k, v⟩ := entry
      cases other with
      | nil => exact absurd (List.nil_prefix) haround
      | cons segment other =>
          have hrest := ih hinside haround
          simp only [List.foldl_cons, Option.bind_some] at hrest ⊢
          by_cases hk : k = str segment
          · rw [hk, get?_map_cons_self, get?_map_cons_self]
          · rw [get?_map_cons_of_ne hk, get?_map_cons_of_ne hk, hrest]

end DifferAt

end Value

end Marginalia.Yaml
