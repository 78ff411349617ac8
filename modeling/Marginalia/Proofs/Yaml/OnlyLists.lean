import Marginalia.Proofs.Yaml.FieldText
import Marginalia.Proofs.Yaml.InPlace
import Marginalia.Proofs.Yaml.ItemList

/-!
# What a list replacement refuses

A list replacement looks at the text behind the colon of its key and refuses
what does not open a bracket there.  The reader, too, takes an opening bracket
behind a colon for the start of a sequence, and makes it the value of the key.
So a value that is no list is refused when it begins on the line of its key, and
it is not refused when it begins below.
-/

namespace Marginalia.Yaml

open Source (isBlank)

/-! ## The node behind a path -/

namespace Node

theorem exists_value_of_leads {path : List Text} {n : Nat} {r : Reader} (h : Leads path n r)
    {ts : List Token} {d : Nat} {es : List (Node × Node)} {r' : Reader}
    (hread : (readBlockEntries (n + d)).run (r.append ts) = .ok (es, r')) :
    ∃ fuel m value m', m.tokens = ts ∧ (blockNode fuel).run m = .ok (value, m') ∧
      DifferAt value value path es es := by
  induction h generalizing es r' with
  | @here name bare text r fuel hkey htokens =>
      have hlead : (r.append ts).tokens = .key :: .scalar bare text :: .value :: ts := by
        rw [Reader.append, htokens]
        rfl
      rw [Nat.add_right_comm, run_readBlockEntries_word_eq_ok_iff hlead] at hread
      obtain ⟨value, m', after, hvalue, -, rfl⟩ := hread
      exact ⟨_, _, value, m', rfl, hvalue, .here after hkey⟩
  | @inside name path bare text tokens r fuel hkey htokens h ih =>
      have hlead : (r.append ts).tokens =
          .key :: .scalar bare text :: .value :: .blockMappingStart :: (tokens ++ ts) := by
        rw [Reader.append, htokens]
        rfl
      rw [Nat.add_right_comm, run_readBlockEntries_word_eq_ok_iff hlead] at hread
      obtain ⟨_, _, after, hvalue, -, rfl⟩ := hread
      rw [run_blockNode_of_mapping rfl, run_read_mapping_eq_ok_iff rfl] at hvalue
      obtain ⟨inner, hinner, rfl⟩ := hvalue
      obtain ⟨k, m, value, m', hm, hvalue, hdiffer⟩ := ih hinner
      exact ⟨k, m, value, m', hm, hvalue, .inside after hkey hdiffer⟩
  | @past path entry r m fuel hkey hentry h ih =>
      have hhead : (r.append ts).tokens.head? = some .key := by
        rw [Reader.append, List.head?_append, hkey]
        rfl
      have hfirst := run_blockEntry_append hkey hentry h.tokens_ne_nil
      rw [Nat.add_right_comm, run_readBlockEntries_eq_ok_iff hhead] at hread
      obtain ⟨_, _, after, hvalue, hafter, rfl⟩ := hread
      rw [hfirst] at hvalue
      obtain ⟨rfl, rfl⟩ := Prod.mk.inj (Except.ok.inj hvalue)
      obtain ⟨k, m, value, m', hm, hvalue, hdiffer⟩ := ih hafter
      exact ⟨k, m, value, m', hm, hvalue, .past entry hdiffer⟩

theorem run_read_flowSequence {fuel : Nat} {tokens : List Token} {r : Reader}
    (hr : r.tokens = .flowSequenceStart :: tokens) :
    (read true true (fuel + 1)).run r =
      (readFlowItems true fuel).run { r with tokens := tokens, events := r.events + 2 } >>= fun p =>
        .ok (.sequence ⟨none, none⟩ p.1, p.2) := by
  obtain ⟨_, anchors, handles, events⟩ := r
  obtain rfl := hr
  unfold read
  rfl

theorem exists_sequence_of_flowSequenceStart {fuel : Nat} {tokens : List Token} {r r' : Reader}
    {n : Node} (hr : r.tokens = .flowSequenceStart :: tokens)
    (h : (blockNode fuel).run r = .ok (n, r')) : ∃ items, n = .sequence ⟨none, none⟩ items := by
  rw [run_blockNode_of_not_ends (by rw [hr]; rfl)] at h
  cases fuel with
  | zero => cases h
  | succ fuel =>
      rw [run_read_flowSequence hr] at h
      obtain ⟨⟨items, _⟩, -, h⟩ := bind_eq_ok_iff.mp h
      obtain ⟨rfl, rfl⟩ := Prod.mk.inj (Except.ok.inj h)
      exact ⟨items, rfl⟩

/-- The document whose tokens lead to some others has behind the path what is
read of those. -/
theorem exists_value_of_leadsTo {path : List Text} {lead ts left : List Token} {d : Document}
    (h : LeadsTo path lead) (hread : readDocument (lead ++ ts) = .ok (d, left)) :
    ∃ fuel m value m' es, m.tokens = ts ∧ (blockNode fuel).run m = .ok (value, m') ∧
      d.root = .mapping ⟨none, none⟩ es ∧ DifferAt value value path es es := by
  obtain ⟨tokens, hleads, hdocument⟩ := readDocument_of_leadsTo h
  have hfuel : 3 * (tokens ++ ts).length + 5 =
      3 * tokens.length + 3 + (3 * ts.length + 2) := by
    rw [List.length_append]
    omega
  rw [hdocument, readRoot_mapping_eq_ok_iff, hfuel] at hread
  obtain ⟨es, r, hes, rfl, -⟩ := hread
  obtain ⟨fuel, m, value, m', hm, hvalue, hdiffer⟩ := exists_value_of_leads hleads hes
  exact ⟨fuel, m, value, m', es, hm, hvalue, rfl, hdiffer⟩

end Node

/-! ## The value behind a path -/

namespace Value

variable {old new : Node} {path : List Text}

/-- Behind a path stands the value of the node there. -/
theorem exists_value_of_differAt {es es' : List (Node × Node)}
    (h : Node.DifferAt old new path es es') {a : Anchors} {left n m : Nat}
    {vs : List (Value × Value)} (hvs : (es.mapM (ofEntry a left)).run n = .ok (vs, m)) :
    ∃ levels k v k', (ofNode a levels false old).run k = .ok (v, k') ∧
      DifferAt v v path vs vs := by
  induction h generalizing left n m vs with
  | here rest hkey =>
      obtain ⟨_, k', after, hfirst, -, rfl⟩ := run_mapM_cons_eq_ok_iff.mp hvs
      obtain ⟨v, hv, rfl⟩ := (run_ofEntry_word_eq_ok_iff hkey).mp hfirst
      exact ⟨left, n, v, k', hv, .here after⟩
  | inside rest hkey h ih =>
      obtain ⟨_, _, after, hfirst, -, rfl⟩ := run_mapM_cons_eq_ok_iff.mp hvs
      obtain ⟨_, hinner, rfl⟩ := (run_ofEntry_word_eq_ok_iff hkey).mp hfirst
      obtain ⟨inner, ws, rfl, hws, hdistinct, rfl⟩ := run_ofNode_mapping_eq_ok_iff.mp hinner
      obtain ⟨levels, k, v, k', hv, hdiffer⟩ := ih hws
      exact ⟨levels, k, v, k', hv, .inside after hdistinct hdiffer⟩
  | past entry h ih =>
      obtain ⟨v, _, after, -, hafter, rfl⟩ := run_mapM_cons_eq_ok_iff.mp hvs
      obtain ⟨levels, k, w, k', hw, hdiffer⟩ := ih hafter
      exact ⟨levels, k, w, k', hw, .past v hdiffer⟩

theorem exists_seq_of_run_ofNode {a : Anchors} {left k k' : Nat} {items : List Node} {v : Value}
    (h : (ofNode a left false (.sequence ⟨none, none⟩ items)).run k = .ok (v, k')) :
    ∃ vs, v = .seq vs := by
  cases left with
  | zero =>
      have hdeep : (ofNode a 0 false (.sequence ⟨none, none⟩ items)).run k = .error .tooDeep := by
        unfold ofNode
        rfl
      rw [hdeep] at h
      cases h
  | succ left =>
      rw [ofNode_sequence, StateT.run_bind] at h
      obtain ⟨⟨vs, _⟩, -, h⟩ := bind_eq_ok_iff.mp h
      obtain ⟨rfl, -⟩ := Prod.mk.inj (Except.ok.inj h)
      exact ⟨vs, rfl⟩

theorem exists_seq_of_leadsTo {module path : Text} {lead later : List Token} {root : Value}
    (hlead : Node.LeadsTo (module :: Outline.segments path) lead)
    (hroot : ofTokens (lead ++ .flowSequenceStart :: later) = .ok root) :
    ∃ vs, root.lookup module path = some (.seq vs) := by
  obtain ⟨d, left, hread, -, hroot⟩ := ofTokens_eq_ok_iff.mp hroot
  obtain ⟨fuel, m, node, m', es, hm, hnode, hmapping, hdiffer⟩ :=
    Node.exists_value_of_leadsTo hlead hread
  obtain ⟨items, rfl⟩ := Node.exists_sequence_of_flowSequenceStart hm hnode
  obtain ⟨k, hrun⟩ := exists_run_of_ofDocument_eq_ok hroot
  rw [hmapping] at hrun
  obtain ⟨inner, vs, -, hvs, hdistinct, rfl⟩ := run_ofNode_mapping_eq_ok_iff.mp hrun
  obtain ⟨levels, _, v, _, hv, hvalues⟩ := exists_value_of_differAt hdiffer hvs
  obtain ⟨ws, rfl⟩ := exists_seq_of_run_ofNode hv
  exact ⟨ws, hvalues.foldl_get?_eq hdistinct⟩

end Value

/-! ## The bracket behind a key -/

namespace Scan

/-- Behind the colon of a key an opening bracket begins a flow sequence, and the
tokens before it stay what they are. -/
theorem AwaitsValue.exists_finish_openSequence {s : Scan} {indent : Nat} (h : s.AwaitsValue indent)
    {gap x : Text} (hgap : ∀ c ∈ gap, isBlank c = true) {ts : List Token}
    (hfinish : (s.append (gap ++ '[' :: x)).finish = .ok ts) :
    ∃ later, ts = later ++ .flowSequenceStart :: s.tokens := by
  have happroach := h.approach_append (r := x) (c := '[') hgap (by decide) (by decide)
  let opened : Scan :=
    { s with
      cursor := ⟨x, s.cursor.line, s.cursor.column + gap.length + 1⟩
      outer := [none]
      candidate := none
      keyAllowed := true
      tokens := .flowSequenceStart :: s.tokens }
  have hdispatch : ({ s with cursor := ⟨'[' :: x, s.cursor.line, s.cursor.column + gap.length⟩ } :
      Scan).dispatch '[' x = .ok opened := by
    rw [dispatch_openSequence, openFlow, markKey, h.keyAllowed]
    simp only [opened, h.candidate, h.outer]
    rfl
  rw [finish_of_dispatch happroach rfl hdispatch] at hfinish
  -- no key can have begun before the bracket, so nothing is put in before it
  have hbounded : Bounded (.flowSequenceStart :: s.tokens) x.length opened := by
    refine ⟨⟨⟨[], rfl, by simp⟩, ?_⟩, Nat.le_refl _⟩
    simp [opened]
  obtain ⟨later, hlater, -⟩ := ensures_run hbounded _ ts hfinish
  exact ⟨later, hlater⟩

end Scan

theorem KeyLine.exists_eq_gap_append (head rest : Text) :
    ∃ tail, rest = (cut head rest).gap ++ ((cut head rest).value ++ tail) := by
  obtain ⟨tail, htail⟩ := Scalar.prefix_fst_splitComment rest
  refine ⟨tail, ?_⟩
  have hraw : (cut head rest).gap ++ (cut head rest).value = (Scalar.splitComment rest).1 :=
    List.takeWhile_append_dropWhile
  rw [← List.append_assoc, hraw, htail]

namespace Patch

namespace KeyInPlace

variable {t module path : Text} (f : KeyInPlace t module path)

/-- A value that the patcher takes for a flow list is a list for the reader. -/
theorem exists_seq {root : Value} (hroot : Value.ofText t = .ok root)
    (hvalue : f.key.value.head? = some '[') : ∃ vs, root.lookup module path = some (.seq vs) := by
  rw [Value.ofText_eq] at hroot
  obtain ⟨tokens, htokens, hroot⟩ := bind_eq_ok_iff.mp hroot
  have hfinish := f.finish_behindKey htokens
  obtain ⟨front, rest, hcontent, -, hkey, -⟩ := (FieldAt.of_keyLine f.located f.keyed).exists_cut
  have hdrop : f.line.line.content.drop f.key.head.length = rest := by
    have hhead : f.key.head = front ++ [':'] := by rw [hkey]; rfl
    have hcut : front ++ ':' :: rest = (front ++ [':']) ++ rest := by simp
    rw [hcontent, hhead, hcut, List.drop_left]
  obtain ⟨tail, htail⟩ := KeyLine.exists_eq_gap_append (front ++ [':']) rest
  rw [← hkey] at htail
  obtain ⟨r, hr⟩ := List.head?_eq_some_iff.mp hvalue
  rw [behindKey, hdrop, htail, hr, List.append_assoc,
    Source.withLineFeeds_append_of_endsLine fun c hc => Scan.endsLine_of_isBlank (f.gap c hc),
    List.cons_append, List.cons_append,
    Source.withLineFeeds_cons (by decide) (by decide)] at hfinish
  obtain ⟨later, hlater⟩ := f.awaits.exists_finish_openSequence f.gap hfinish
  have hsplit : tokens = f.state.tokens.reverse ++ .flowSequenceStart :: later.reverse := by
    rw [← List.reverse_reverse tokens, hlater]
    simp
  rw [hsplit] at hroot
  exact Value.exists_seq_of_leadsTo f.leads hroot

/-- A value that is no list is refused exactly when it begins on the line of its
key. -/
theorem replaceList_eq_notAList_iff {root v : Value} (hroot : Value.ofText t = .ok root)
    (hlookup : root.lookup module path = some v) (hlist : ∀ vs, v ≠ .seq vs)
    (items : List ListItem) :
    replaceList t module path items = .error (.notAList module path) ↔ f.key.value ≠ [] := by
  obtain ⟨range, hlocated⟩ := f.located
  have hbracket : f.key.value.head? ≠ some '[' := by
    intro hvalue
    obtain ⟨vs, hvs⟩ := f.exists_seq hroot hvalue
    exact hlist vs (Option.some.inj (hlookup.symm.trans hvs))
  have hroom : admitsBlock '[' f.key = true ↔ f.key.value = [] := by
    simp [admitsBlock, hbracket]
  simp only [replaceList, bind, Except.bind, hlocated, f.keyed, Bool.not_eq_true']
  constructor
  · intro h hnone
    rw [hroom.mpr hnone] at h
    cases h
  · intro hne
    have hfull : admitsBlock '[' f.key = false := by
      rw [Bool.eq_false_iff]
      exact fun h => hne (hroom.mp h)
    rw [hfull]
    rfl

end KeyInPlace

/-- A plain scalar with a comment. -/
theorem replaceList_eq_notAList_commented :
    ∃ v, ((Value.ofText commented).toOption.bind (·.lookup ['m'] ['k'])) = some v ∧
      Scalar.ofValue? v = some (.str "b c".toList) ∧
      replaceList commented ['m'] ['k'] [.scalar (.int 1)] = .error (.notAList ['m'] ['k']) := by
  obtain ⟨f⟩ := nonempty_fieldInPlace_commented
  obtain ⟨root, hroot⟩ : ∃ root, Value.ofText commented = .ok root :=
    isSome_toOption_iff.mp (by decide +kernel)
  have hscalar : ((Value.ofText commented).toOption.bind (·.lookup ['m'] ['k'])).bind
      Scalar.ofValue? = some (.str "b c".toList) := by
    decide +kernel
  obtain ⟨v, hv, hvalue⟩ := Option.bind_eq_some_iff.mp hscalar
  have hlookup : root.lookup ['m'] ['k'] = some v := by
    simpa [hroot, Except.toOption] using hv
  have hlist : ∀ vs, v ≠ .seq vs := by
    rintro vs rfl
    cases hvalue
  have hkey : f.key.value ≠ [] := by
    obtain ⟨range, hlocated⟩ := f.located
    have hkeyed := f.keyed
    have hlocate : (Outline.ofText commented).locate ['m'] ['k'] = .ok (⟨1, 4⟩, 3) := by
      decide +kernel
    obtain ⟨-, hindex⟩ := Prod.mk.inj (Except.ok.inj (hlocated.symm.trans hlocate))
    have hline : (keyLine (Outline.ofText commented) 3 ['m'] ['k']).map (·.2.value) =
        .ok "b c".toList := by
      decide +kernel
    rw [← hindex, hkeyed] at hline
    have hword : f.key.value = "b c".toList := Except.ok.inj hline
    simp [hword]
  exact ⟨v, hv, hvalue,
    (KeyInPlace.replaceList_eq_notAList_iff f.toKeyInPlace hroot hlookup hlist _).mpr hkey⟩

/-- A scalar below the line of its key is not refused: the item is written above
it, and what was a document is none any more. -/
theorem replaceList_above_scalar :
    let t := "m:\n  k:\n    a b\n".toList
    let u := "m:\n  k:\n    - 1\n    a b\n".toList
    ((Value.ofText t).toOption.bind (·.lookup ['m'] ['k'])).bind Scalar.ofValue? =
        some (.str "a b".toList) ∧
      ∃ es, replaceList t ['m'] ['k'] [.scalar (.int 1)] = .ok es ∧ Edit.applyAll? es t = some u ∧
        (Value.ofText u).toOption.isSome = false := by
  intro t u
  have hedits : replaceList t ['m'] ['k'] [.scalar (.int 1)] =
      .ok [⟨⟨8, 8⟩, "    - 1\n".toList⟩] := by
    decide +kernel
  exact ⟨by decide +kernel, _, hedits, by decide +kernel, by decide +kernel⟩

end Patch

end Marginalia.Yaml
