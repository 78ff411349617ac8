import Marginalia.Proofs.Yaml.ListInPlace
import Marginalia.Proofs.Yaml.Numbers

/-!
# A list that is written back

The items of a list are what the form shows of it: its scalars, and the scalar
fields of its records.  Written back unchanged they are the list again, without
what the form does not show, as long as their strings and keys are spelled like
nothing else and their numbers are finite.
-/

namespace Marginalia.Yaml

namespace Value

/-- What the items of a list keep of one of its values. -/
def kept (v : Value) : Option Value :=
  (listItem? v).map ListItem.value

/-- A scalar that is an item as it is. -/
inductive IsLeaf : Value → Prop
  | null : IsLeaf .null
  | bool (b : Bool) : IsLeaf (.bool b)
  | int {i : Int} (h : i ≤ Scalar.greatestInt) : IsLeaf (.int i)
  | float (x : Binary64) : IsLeaf (.float x)
  | str (s : Text) : IsLeaf (.str s)

/-- A scalar, or a record of scalars. -/
inductive IsFlat : Value → Prop
  | leaf {v : Value} (h : IsLeaf v) : IsFlat v
  | record {es : List (Value × Value)} (h : ∀ e ∈ es, (∃ key, e.1 = .str key) ∧ IsLeaf e.2) :
      IsFlat (.map es)

theorem IsLeaf.exists_ofValue? {v : Value} (h : IsLeaf v) :
    ∃ x, Scalar.ofValue? v = some x ∧ x.value = v := by
  cases h with
  | null => exact ⟨.null, rfl, rfl⟩
  | bool b => exact ⟨.bool b, rfl, rfl⟩
  | int h => exact ⟨.int _, if_pos h, rfl⟩
  | float x => exact ⟨.float x, rfl, rfl⟩
  | str s => exact ⟨.str s, rfl, rfl⟩

theorem IsFlat.kept_eq {v : Value} (h : IsFlat v) : kept v = some v := by
  cases h with
  | leaf h =>
      obtain ⟨x, hx, hvalue⟩ := h.exists_ofValue?
      have hitem : listItem? v = some (.scalar x) := by
        cases h <;> exact congrArg (Option.map ListItem.scalar) hx
      rw [kept, hitem, Option.map_some, ListItem.value, hvalue]
  | @record es h =>
      have hentries : (es.filterMap fun e => e.1.str?.bind fun key =>
          (Scalar.ofValue? e.2).map (key, ·)).map (fun f => (str f.1, f.2.value)) = es := by
        induction es with
        | nil => rfl
        | cons e es ih =>
            obtain ⟨⟨key, hkey⟩, hleaf⟩ := h e (List.mem_cons_self ..)
            obtain ⟨x, hx, hvalue⟩ := hleaf.exists_ofValue?
            have hentry : (e.1.str?.bind fun key => (Scalar.ofValue? e.2).map (key, ·)) =
                some (key, x) := by
              rw [hkey, hx]
              rfl
            simp only [List.filterMap_cons, hentry, List.map_cons, hvalue, ← hkey]
            rw [ih fun g hg => h g (List.mem_cons_of_mem e hg)]
      exact congrArg (some ∘ map) hentries

theorem filterMap_kept_eq {vs : List Value} (h : ∀ v ∈ vs, IsFlat v) : vs.filterMap kept = vs :=
  (List.filterMap_congr fun v hv => (h v hv).kept_eq).trans List.filterMap_some

theorem map_value_listItems {root : Value} {module path : Text} {vs : List Value}
    (h : root.lookup module path = some (.seq vs)) :
    (root.listItems module path).map ListItem.value = vs.filterMap kept := by
  rw [listItems, h]
  exact List.map_filterMap

end Value

/-! ## Items of a document -/

/-- A scalar that means the same when it is written: a string that is read back
with the given quotes, or anything else but an infinity and the not-a-number. -/
def Scalar.Legible (quote : Quote) : Scalar → Prop
  | .str s => ReadsBack quote s
  | .float x => x.isFinite = true
  | _ => True

/-- An item that means the same when it is written: a scalar, or a record with
different keys that are read back bare. -/
def ListItem.Legible : ListItem → Prop
  | .scalar x => x.Legible .plain
  | .record fields => (fields.map Prod.fst).Nodup ∧
      ∀ f ∈ fields, Scalar.ReadsKey f.1 ∧ f.2.Legible .double

namespace Value

theorem Representable.returns_scalar {v : Value} (h : v.Representable) {quote : Quote} {x : Scalar}
    (hx : Scalar.ofValue? v = some x) (hlegible : x.Legible quote) : x.Returns quote := by
  cases h with
  | null => exact Option.some.inj hx ▸ .word .null
  | bool b => exact Option.some.inj hx ▸ .word (.bool b)
  | @int i hleast hgreatest =>
      rw [Scalar.ofValue?] at hx
      split at hx
      · next hscalar => exact Option.some.inj hx ▸ .word (.int hleast hscalar)
      · obtain rfl := Option.some.inj hx
        exact .float (ofPlain_write (Binary64.isRounded_ofInt i) hlegible Scalar.floatLayout)
  | @float y hrounded =>
      obtain rfl := Option.some.inj hx
      exact .float (ofPlain_write hrounded hlegible Scalar.floatLayout)
  | str s =>
      obtain rfl := Option.some.inj hx
      exact .str hlegible
  | seq => cases hx
  | map => cases hx
  | tagged => cases hx

theorem Representable.returns_item {v : Value} (h : v.Representable) {item : ListItem}
    (hitem : listItem? v = some item) (hlegible : item.Legible) : item.Returns := by
  have hscalar : (Scalar.ofValue? v).map ListItem.scalar = some item → item.Returns := by
    intro hmap
    obtain ⟨x, hx, rfl⟩ := Option.map_eq_some_iff.mp hmap
    exact .scalar (h.returns_scalar hx hlegible)
  cases v with
  | map es =>
      obtain rfl := Option.some.inj hitem
      obtain ⟨hdistinct, hfields⟩ := hlegible
      refine .record (fun f hf => (hfields f hf).1) hdistinct fun f hf => ?_
      obtain ⟨e, he, hfield⟩ := List.mem_filterMap.mp hf
      obtain ⟨key, -, hfield⟩ := Option.bind_eq_some_iff.mp hfield
      obtain ⟨x, hx, rfl⟩ := Option.map_eq_some_iff.mp hfield
      cases h with
      | map hkeys hvalues => exact (hvalues e he).returns_scalar hx (hfields _ hf).2
  | null => exact hscalar hitem
  | bool b => exact hscalar hitem
  | int i => exact hscalar hitem
  | float x => exact hscalar hitem
  | str s => exact hscalar hitem
  | seq vs => exact hscalar hitem
  | tagged name v => exact hscalar hitem

theorem exists_lookup_of_listItems_ne_nil {root : Value} {module path : Text}
    (h : root.listItems module path ≠ []) : ∃ vs, root.lookup module path = some (.seq vs) := by
  unfold listItems at h
  split at h
  · next vs hlookup => exact ⟨vs, hlookup⟩
  · exact absurd rfl h

theorem returns_of_mem_listItems {t module path : Text} {root : Value} (hroot : ofText t = .ok root)
    {item : ListItem} (hitem : item ∈ root.listItems module path) (hlegible : item.Legible) :
    item.Returns := by
  unfold listItems at hitem
  split at hitem
  · next vs hlookup =>
      obtain ⟨v, hv, hitem⟩ := List.mem_filterMap.mp hitem
      cases (representable_ofText hroot).lookup hlookup with
      | seq h => exact (h v hv).returns_item hitem hlegible
  · cases hitem

end Value

namespace Patch

variable {t module path : Text}

/-- The items of a list in its place: the text parses, the list has everything
that its items keep and the same items, and a list of scalars and of records of
scalars is the same list. -/
theorem exists_lookup_of_unchanged (f : ListInPlace t module path) {root : Value}
    {vs : List Value} (hroot : Value.ofText t = .ok root)
    (hlookup : root.lookup module path = some (.seq vs))
    (hitems : ∀ item ∈ root.listItems module path, item.Legible) :
    ∃ es u root', replaceList t module path (root.listItems module path) = .ok es ∧
      Edit.applyAll? es t = some u ∧ Value.ofText u = .ok root' ∧
      root'.lookup module path = some (.seq (vs.filterMap Value.kept)) ∧
      root'.listItems module path = root.listItems module path ∧
      ((∀ v ∈ vs, v.IsFlat) → root'.lookup module path = some (.seq vs)) ∧
      ∀ other, other ≠ module → root'.get? other = root.get? other := by
  have hreturns : ∀ item ∈ root.listItems module path, item.Returns := fun item hitem =>
    Value.returns_of_mem_listItems hroot hitem (hitems item hitem)
  obtain ⟨es, u, root', hreplace, happly, hread, hnew, hother⟩ :=
    exists_lookup_of_listInPlace f hroot hreturns
  have hsame : root'.listItems module path = root.listItems module path := by
    rw [Value.listItems, hnew]
    exact Value.filterMap_listItem? hreturns
  rw [Value.map_value_listItems hlookup] at hnew
  refine ⟨es, u, root', hreplace, happly, hread, hnew, hsame, fun hflat => ?_, hother⟩
  rw [hnew, Value.filterMap_kept_eq hflat]

def nested : Text :=
  ["m:", "  k:", "    - a", "    - [b]"].flatMap (·.toList ++ ['\n'])

def nestedState : Scan where
  cursor := ⟨[], 1, 4⟩
  indents := [2, 0]
  candidate := none
  outer := []
  keyAllowed := false
  tokens := [.value, .scalar true ['k'], .key, .blockMappingStart, .value, .scalar true ['m'], .key,
    .blockMappingStart]

def nestedTokens : List Token :=
  [.blockSequenceStart, .blockEntry, .scalar true ['a'], .blockEntry, .flowSequenceStart,
    .scalar true ['b'], .flowSequenceEnd, .blockEnd]

theorem fillsValue_nestedTokens (rest : List Token) : Node.FillsValue 6 nestedTokens rest := by
  let node : Node := .sequence ⟨none, none⟩
    [Node.word true ['a'], .sequence ⟨none, none⟩ [Node.word true ['b']]]
  have hvalue : Node.IsValue node 6 nestedTokens rest := by
    intro fuel r hfuel hr
    obtain ⟨fuel, rfl⟩ := Nat.exists_eq_add_of_le' hfuel
    obtain ⟨_, anchors, handles, events⟩ := r
    obtain rfl := hr
    rfl
  exact hvalue.fillsValue rfl

theorem nonempty_listInPlace_nested : Nonempty (ListInPlace nested ['m'] ['k']) := by
  have hfew : ((Node.ofText nested).toOption.all fun d =>
      (Value.ofDocument ⟨d.root, d.events - 6⟩).toOption.isSome) = true := by decide +kernel
  exact ⟨{
    index := 1
    line := ⟨⟨1, 3, "  k:".toList, .lf⟩, 2, .key ['k'] 3⟩
    key := ⟨"  k:".toList, [], [], []⟩
    state := nestedState
    indent := 2
    located := ⟨⟨0, 4⟩, by decide +kernel⟩
    keyed := by decide +kernel
    through := by decide +kernel
    opens := by decide +kernel
    awaits := ⟨rfl, rfl, rfl, rfl, rfl, by decide⟩
    leads := Node.leadsTo_first (Value.ofPlain_of_isAlpha (by decide) (by decide) (by decide))
      (Value.ofPlain_of_isAlpha (by decide) (by decide) (by decide))
    gap := by simp
    comment := Or.inl rfl
    body := ⟨⟨2, 4⟩, 4⟩
    value := nestedTokens
    size := 6
    later := [.blockEnd, .blockEnd]
    admits := by decide
    found := ⟨⟨0, 4⟩, by decide +kernel, by decide +kernel⟩
    deep := by decide
    room := by decide
    quiet := by decide +kernel
    shallow := by decide +kernel
    head?_ne_tab := by decide +kernel
    ends := by decide +kernel
    tokens := by decide +kernel
    fills := fillsValue_nestedTokens _
    few := by
      intro d hd
      rw [hd] at hfew
      exact isSome_toOption_iff.mp hfew }⟩

def shown (t : Text) : Option (List ListItem) :=
  (Value.ofText t).toOption.map (·.listItems ['m'] ['k'])

theorem exists_lookup_of_shown {t : Text} {item : ListItem} (h : shown t = some [item]) :
    ∃ root vs, Value.ofText t = .ok root ∧ root.listItems ['m'] ['k'] = [item] ∧
      root.lookup ['m'] ['k'] = some (.seq vs) := by
  cases hread : Value.ofText t with
  | error e =>
      rw [shown, hread] at h
      cases h
  | ok root =>
      rw [shown, hread] at h
      have hlist : root.listItems ['m'] ['k'] = [item] := Option.some.inj h
      have hne : root.listItems ['m'] ['k'] ≠ [] := by
        rw [hlist]
        exact List.cons_ne_nil _ _
      obtain ⟨vs, hlookup⟩ := Value.exists_lookup_of_listItems_ne_nil hne
      exact ⟨root, vs, rfl, hlist, hlookup⟩

/-- The list is written back with its item, and without the sequence that is
none. -/
theorem exists_lookup_of_unchanged_nested :
    ∃ es u root root', Value.ofText nested = .ok root ∧
      replaceList nested ['m'] ['k'] (root.listItems ['m'] ['k']) = .ok es ∧
      Edit.applyAll? es nested = some u ∧ Value.ofText u = .ok root' ∧
      root'.lookup ['m'] ['k'] = some (.seq [.str ['a']]) := by
  obtain ⟨f⟩ := nonempty_listInPlace_nested
  obtain ⟨root, vs, hroot, hlist, hlookup⟩ :=
    exists_lookup_of_shown (show shown nested = some [.scalar (.str ['a'])] by decide +kernel)
  have hlegible : ∀ item ∈ root.listItems ['m'] ['k'], item.Legible := by
    rw [hlist]
    intro item hitem
    obtain rfl := List.mem_singleton.mp hitem
    exact ⟨List.forall_mem_singleton.mpr (by decide),
      fun _ => Scalar.readsQuoted_of_isSeparator (List.forall_mem_singleton.mpr (by decide)),
      fun _ _ => ⟨List.forall_mem_singleton.mpr (by decide), by decide, by decide, by decide, rfl,
        Or.inr (by decide)⟩⟩
  obtain ⟨es, u, root', hreplace, happly, hread, hkept, -, -, -⟩ :=
    exists_lookup_of_unchanged f hroot hlookup hlegible
  rw [← Value.map_value_listItems hlookup, hlist] at hkept
  exact ⟨es, u, root, root', hroot, hreplace, happly, hread, hkept⟩

/-- A word between quotes is written back without them, and is a boolean from
then on. -/
theorem lookup_ne_of_quoted_item :
    let t := "m:\n  k:\n    - \"true\"\n".toList
    ∃ es u root root' vs, Value.ofText t = .ok root ∧
      root.lookup ['m'] ['k'] = some (.seq vs) ∧
      root.listItems ['m'] ['k'] = [.scalar (.str "true".toList)] ∧
      replaceList t ['m'] ['k'] (root.listItems ['m'] ['k']) = .ok es ∧
      Edit.applyAll? es t = some u ∧ u = "m:\n  k:\n    - true\n".toList ∧
      Value.ofText u = .ok root' ∧ root'.listItems ['m'] ['k'] = [.scalar (.bool true)] ∧
      root'.lookup ['m'] ['k'] ≠ some (.seq vs) := by
  intro t
  let u := "m:\n  k:\n    - true\n".toList
  obtain ⟨root, vs, hroot, hlist, hlookup⟩ := exists_lookup_of_shown
    (show shown t = some [.scalar (.str "true".toList)] by decide +kernel)
  obtain ⟨root', vs', hroot', hlist', hlookup'⟩ := exists_lookup_of_shown
    (show shown u = some [.scalar (.bool true)] by decide +kernel)
  have hreplace : replaceList t ['m'] ['k'] [.scalar (.str "true".toList)] =
      .ok [⟨⟨8, 21⟩, "    - true\n".toList⟩] := by
    decide +kernel
  rw [← hlist] at hreplace
  refine ⟨_, u, root, root', vs, hroot, hlookup, hlist, hreplace, by decide +kernel, rfl, hroot',
    hlist', fun hsame => ?_⟩
  -- The same sequence would have the same items.
  have hitems : root'.listItems ['m'] ['k'] = root.listItems ['m'] ['k'] := by
    rw [Value.listItems, Value.listItems, hsame, hlookup]
  rw [hlist, hlist'] at hitems
  cases hitems

end Patch

end Marginalia.Yaml
