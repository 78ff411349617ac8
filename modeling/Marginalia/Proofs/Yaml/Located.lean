import Marginalia.Proofs.Yaml.Isolation

/-!
# When a change finds its place

What is found by a path is a line with a key, so a field that is located can be
given a value.  A change is refused for one of three reasons and for no other:
no module has the name that it gives, a path of it is not in the module, or a
value that has to be a block is a scalar on the line of its key.
-/

namespace Marginalia

namespace Yaml

namespace Outline

theorem moduleFrom?_eq_none_iff {name : Text} {index : Nat} {o : Outline} :
    moduleFrom? name index o = none ↔ ∀ l ∈ o, l.opensModule = true → l.key? ≠ some name := by
  induction o generalizing index with
  | nil => simp [moduleFrom?]
  | cons l ls ih =>
      rw [moduleFrom?, List.forall_mem_cons]
      split
      · next hopens => simp [hopens]
      · next hopens =>
          rw [ih]
          exact ⟨fun hrest => ⟨fun hopen hkey => hopens ⟨hopen, hkey⟩, hrest⟩, And.right⟩

theorem exists_key?_of_locate {o : Outline} {name dotted : Text} {range : LineRange} {n : Nat}
    (h : o.locate name dotted = .ok (range, n)) :
    ∃ l key, o[n]? = some l ∧ l.key? = some key := by
  obtain ⟨hmodule, hpath⟩ := locate_eq_ok_iff.mp h
  cases hsegments : segments dotted with
  | nil =>
      rw [hsegments, findPath] at hpath
      obtain rfl := Except.ok.inj hpath
      obtain ⟨l, hl, hkey⟩ := exists_key?_of_moduleFrom? (module_eq_ok_iff.mp hmodule)
      exact ⟨l, name, hl, hkey⟩
  | cons segment deeper =>
      rw [hsegments] at hpath
      simp only [findPath] at hpath
      split at hpath
      · next line hwalk =>
          obtain rfl := Except.ok.inj hpath
          obtain ⟨l, key, hl, hkey⟩ := exists_key?_of_walk hwalk
          obtain ⟨hstart, hstop⟩ := walk_bounds hwalk
          rw [List.length_drop, List.length_take] at hstop
          refine ⟨l, key, ?_, hkey⟩
          rw [List.getElem?_drop, List.getElem?_take, if_pos (by omega)] at hl
          rwa [(by omega : range.start + 1 + (line - (range.start + 1)) = line)] at hl
      · cases hpath

end Outline

theorem KeyLine.exists_ofLine? {l : OutlineLine} {key : Text} (h : l.key? = some key) :
    ∃ k, KeyLine.ofLine? l = some k := by
  unfold OutlineLine.key? at h
  split at h
  · next name colon hkind =>
      rw [KeyLine.ofLine?, hkind]
      exact ⟨_, rfl⟩
  · cases h

namespace Patch

theorem exists_keyLine_of_locate {o : Outline} {module path : Text} {range : LineRange} {n : Nat}
    (h : o.locate module path = .ok (range, n)) :
    ∃ l k, keyLine o n module path = .ok (l, k) := by
  obtain ⟨l, key, hl, hkey⟩ := Outline.exists_key?_of_locate h
  obtain ⟨k, hk⟩ := KeyLine.exists_ofLine? hkey
  exact ⟨l, k, keyLine_eq_ok_iff.mpr ⟨hl, hk⟩⟩

theorem setScalar_eq_ok {t module path : Text} {range : LineRange} {n : Nat} {l : OutlineLine}
    {k : KeyLine} (hlocate : (Outline.ofText t).locate module path = .ok (range, n))
    (hkey : keyLine (Outline.ofText t) n module path = .ok (l, k)) (value : Scalar) :
    setScalar t module path value =
      .ok ⟨l.line.contentSpan, k.withValue (value.render (Quote.ofText k.value))⟩ := by
  rw [setScalar]
  exact bind_eq_ok_iff.mpr ⟨_, hlocate, bind_eq_ok_iff.mpr ⟨_, hkey, rfl⟩⟩

/-- A path of a module leads to a key.  Where a block is to be written, given by
the character that such a value opens with in flow style, the line of the key
leaves room for it. -/
def Reaches (t module path : Text) (opening? : Option Char) : Prop :=
  ∃ range n l k, (Outline.ofText t).locate module path = .ok (range, n) ∧
    keyLine (Outline.ofText t) n module path = .ok (l, k) ∧
    ∀ opening ∈ opening?, admitsBlock opening k = true

variable {t module : Text}

theorem exists_setScalar_eq_ok_iff {path : Text} (value : Scalar) :
    (∃ e, setScalar t module path value = .ok e) ↔ Reaches t module path none := by
  constructor
  · rintro ⟨e, h⟩
    obtain ⟨range, n, l, k, hlocate, hkey, -⟩ := exists_of_setScalar_eq_ok h
    exact ⟨range, n, l, k, hlocate, hkey, by simp⟩
  · rintro ⟨range, n, l, k, hlocate, hkey, -⟩
    exact ⟨_, setScalar_eq_ok hlocate hkey value⟩

theorem exists_replaceList_eq_ok_iff {path : Text} (items : List ListItem) :
    (∃ es, replaceList t module path items = .ok es) ↔ Reaches t module path (some '[') := by
  constructor
  · rintro ⟨es, h⟩
    obtain ⟨range, n, l, k, hlocate, hkey, hadmits, -⟩ := exists_of_replaceList_eq_ok h
    refine ⟨range, n, l, k, hlocate, hkey, ?_⟩
    rintro opening hopening
    rwa [← Option.mem_some.mp hopening]
  · rintro ⟨range, n, l, k, hlocate, hkey, hadmits⟩
    have hroom := hadmits '[' rfl
    simp only [replaceList, bind, Except.bind, hlocate, hkey, hroom, Bool.not_true,
      Bool.false_eq_true, if_false]
    exact ⟨_, rfl⟩

theorem exists_reorder_eq_ok_iff {orderPath mapPath : Text} (entries : List (Text × Bool)) :
    (∃ es, reorder t module orderPath mapPath entries = .ok es) ↔
      Reaches t module orderPath (some '[') ∧ Reaches t module mapPath (some '\x7b') := by
  constructor
  · rintro ⟨es, h⟩
    unfold reorder at h
    obtain ⟨⟨range, i⟩, horder, h⟩ := bind_eq_ok_iff.mp h
    obtain ⟨⟨range', j⟩, hmap, h⟩ := bind_eq_ok_iff.mp h
    obtain ⟨⟨l, k⟩, horderKey, h⟩ := bind_eq_ok_iff.mp h
    obtain ⟨⟨l', k'⟩, hmapKey, h⟩ := bind_eq_ok_iff.mp h
    dsimp only at h
    split at h
    · cases h
    · next horderRoom =>
        split at h
        · cases h
        · next hmapRoom =>
            refine ⟨⟨range, i, l, k, horder, horderKey, ?_⟩, range', j, l', k', hmap, hmapKey, ?_⟩
            · simpa using horderRoom
            · simpa using hmapRoom
  · rintro ⟨⟨range, i, l, k, horder, horderKey, horderRoom⟩,
      range', j, l', k', hmap, hmapKey, hmapRoom⟩
    have hroom := horderRoom '[' rfl
    have hroom' := hmapRoom '\x7b' rfl
    simp only [reorder, bind, Except.bind, horder, hmap, horderKey, hmapKey, hroom, hroom',
      Bool.not_true, Bool.false_eq_true, if_false]
    exact ⟨_, rfl⟩

end Patch

end Yaml

namespace ConfigEdit

open Yaml

/-- The paths that a change needs; where it writes a block, each with the
character that the value opens with in flow style. -/
def places : ConfigEdit → List (Text × Option Char)
  | setField _ path _ => [(path, none)]
  | replaceList _ path _ => [(path, some '[')]
  | reorder _ orderPath mapPath _ => [(orderPath, some '['), (mapPath, some '\x7b')]

/-- A change does not apply to a text. -/
inductive Misses (t : Text) (c : ConfigEdit) : Prop
  /-- No module has the name. -/
  | module (h : ∀ l ∈ Outline.ofText t, l.opensModule = true → l.key? ≠ some c.module)
  /-- A path is not in the module. -/
  | path {range : LineRange} {path : Text} {opening? : Option Char} {miss : Miss}
      (hmodule : (Outline.ofText t).module c.module = .ok range)
      (hplace : (path, opening?) ∈ c.places)
      (h : (Outline.ofText t).findPath range (Outline.segments path) = .error miss)
  /-- A key has a scalar on its line where the change writes a block. -/
  | scalar {range : LineRange} {path : Text} {opening : Char} {n : Nat} {l : OutlineLine}
      {k : KeyLine} (hlocate : (Outline.ofText t).locate c.module path = .ok (range, n))
      (hplace : (path, some opening) ∈ c.places)
      (hline : (Outline.ofText t)[n]? = some l) (hkey : KeyLine.ofLine? l = some k)
      (h : Patch.admitsBlock opening k = false)

variable {t : Text} {c : ConfigEdit}

/-- A change succeeds when each of its paths is reached. -/
theorem exists_edits_eq_ok_iff :
    (∃ es, c.edits t = .ok es) ↔ ∀ place ∈ c.places, Patch.Reaches t c.module place.1 place.2 := by
  cases c with
  | setField module path value =>
      rw [places, List.forall_mem_singleton, ConfigEdit.module, edits,
        ← Patch.exists_setScalar_eq_ok_iff value]
      cases Patch.setScalar t module path value <;> simp [Except.map]
  | replaceList module path items =>
      rw [places, List.forall_mem_singleton, ConfigEdit.module, edits,
        ← Patch.exists_replaceList_eq_ok_iff items]
  | reorder module orderPath mapPath entries =>
      rw [places, List.forall_mem_cons, List.forall_mem_singleton, ConfigEdit.module, edits,
        ← Patch.exists_reorder_eq_ok_iff entries]

/-- A path is reached unless a change that needs it does not apply. -/
theorem Misses.of_not_reaches {path : Text} {opening? : Option Char}
    (hplace : (path, opening?) ∈ c.places) (h : ¬Patch.Reaches t c.module path opening?) :
    c.Misses t := by
  cases hmodule : (Outline.ofText t).module c.module with
  | error miss =>
      have hnone : Outline.moduleFrom? c.module 0 (Outline.ofText t) = none := by
        cases hfrom : Outline.moduleFrom? c.module 0 (Outline.ofText t) with
        | none => rfl
        | some range =>
            rw [Outline.module_eq_ok_iff.mpr hfrom] at hmodule
            cases hmodule
      exact .module (Outline.moduleFrom?_eq_none_iff.mp hnone)
  | ok range =>
      cases hpath : (Outline.ofText t).findPath range (Outline.segments path) with
      | error miss => exact .path hmodule hplace hpath
      | ok n =>
          have hlocate := Outline.locate_eq_ok_iff.mpr ⟨hmodule, hpath⟩
          obtain ⟨l, k, hkey⟩ := Patch.exists_keyLine_of_locate hlocate
          obtain ⟨hline, hof⟩ := Patch.keyLine_eq_ok_iff.mp hkey
          have hroom : ∃ opening ∈ opening?, Patch.admitsBlock opening k = false := by
            by_contra hnone
            refine h ⟨range, n, l, k, hlocate, hkey, ?_⟩
            intro opening hopening
            by_contra hfull
            exact hnone ⟨opening, hopening, by simpa using hfull⟩
          obtain ⟨opening, hopening, hfull⟩ := hroom
          rw [Option.mem_def] at hopening
          rw [hopening] at hplace
          exact .scalar hlocate hplace hline hof hfull

/-- A change that does not apply leaves one of its paths unreached. -/
theorem Misses.exists_not_reaches (h : c.Misses t) :
    ∃ place ∈ c.places, ¬Patch.Reaches t c.module place.1 place.2 := by
  have hplaces : ∃ place, place ∈ c.places := by
    cases c with
    | setField module path value => exact ⟨_, List.mem_singleton_self _⟩
    | replaceList module path items => exact ⟨_, List.mem_singleton_self _⟩
    | reorder module orderPath mapPath entries => exact ⟨_, List.mem_cons_self⟩
  cases h with
  | module hnone =>
      obtain ⟨place, hplace⟩ := hplaces
      refine ⟨place, hplace, ?_⟩
      rintro ⟨range, n, l, k, hlocate, -, -⟩
      have hmodule := (Outline.locate_eq_ok_iff.mp hlocate).1
      rw [Outline.module_eq_ok_iff, Outline.moduleFrom?_eq_none_iff.mpr hnone] at hmodule
      cases hmodule
  | path hmodule hplace herror =>
      refine ⟨_, hplace, ?_⟩
      rintro ⟨range, n, l, k, hlocate, -, -⟩
      obtain ⟨hmodule', hpath⟩ := Outline.locate_eq_ok_iff.mp hlocate
      obtain rfl := Except.ok.inj (hmodule.symm.trans hmodule')
      cases herror.symm.trans hpath
  | scalar hlocate hplace hline hkey hfull =>
      refine ⟨_, hplace, ?_⟩
      rintro ⟨range, n, l, k, hlocate', hkey', hroom⟩
      obtain ⟨rfl, rfl⟩ := Prod.mk.inj (Except.ok.inj (hlocate.symm.trans hlocate'))
      obtain ⟨hline', hof⟩ := Patch.keyLine_eq_ok_iff.mp hkey'
      obtain rfl := Option.some.inj (hline.symm.trans hline')
      obtain rfl := Option.some.inj (hkey.symm.trans hof)
      rw [hroom _ rfl] at hfull
      cases hfull

/-- A change is refused exactly when it does not apply. -/
theorem exists_edits_eq_error_iff : (∃ miss, c.edits t = .error miss) ↔ c.Misses t := by
  have hreaches := exists_edits_eq_ok_iff (t := t) (c := c)
  constructor
  · rintro ⟨miss, hmiss⟩
    by_contra happlies
    obtain ⟨es, hes⟩ := hreaches.mpr fun place hplace => by
      by_contra hnone
      exact happlies (.of_not_reaches hplace hnone)
    cases hmiss.symm.trans hes
  · intro h
    obtain ⟨place, hplace, hnone⟩ := h.exists_not_reaches
    cases hedits : c.edits t with
    | error miss => exact ⟨miss, rfl⟩
    | ok es => exact absurd (hreaches.mp ⟨es, hedits⟩ place hplace) hnone

end ConfigEdit

end Marginalia
