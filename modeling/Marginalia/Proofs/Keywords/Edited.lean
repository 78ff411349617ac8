import Marginalia.Keywords.Edit

/-!
# What an accepted edit does

An edit of a keyword list that is not refused does one of few things: it gives
the list other words, puts a new group among the others, takes a group away,
moves one, or gives a group another content.  The relation below says which list
comes out of which edit, with all that was checked on the way; whatever edits
keep is shown of it case by case.
-/

namespace Marginalia.Keywords

namespace KeywordEdit

/-- The edit gives group `index` a new content in the place of its old one. -/
inductive Recasts : KeywordEdit → Nat → GroupKind → GroupKind → Prop where
  | plainKeywords {index : Nat} {old keywords : List Text} (hne : keywords ≠ [])
    (h : keywords.all isKeyword = true) :
    Recasts (.setKeywords index keywords) index (.plain old) (.plain keywords)
  | namedKeywords {index : Nat} {name : Text} {old keywords : List Text}
    (h : keywords.all isKeyword = true) :
    Recasts (.setKeywords index keywords) index (.named name old) (.named name keywords)
  | named {index : Nat} {name : Text} {keywords : List Text} (h : isGroupName name = true) :
    Recasts (.renameGroup index name) index (.plain keywords) (.named name keywords)
  | renamed {index : Nat} {old name : Text} {keywords : List Text} (h : isGroupName name = true) :
    Recasts (.renameGroup index name) index (.named old keywords) (.named name keywords)
  | secondAlias {index : Nat} {first item : Alias} (h : item.isWritable = true) :
    Recasts (.addAlias index item) index (.single first) (.cluster [first, item])
  | anotherAlias {index : Nat} {items : List Alias} {item : Alias} (h : item.isWritable = true) :
    Recasts (.addAlias index item) index (.cluster items) (.cluster (items ++ [item]))
  | lessAlias {index item : Nat} {items : List Alias} (h : item < items.length) :
    Recasts (.removeAlias index item) index (.cluster items) (.ofAliases (items.eraseIdx item))

/-- The edit takes away group `index` with its content. -/
inductive Removes : KeywordEdit → Nat → GroupKind → Prop where
  | group {index : Nat} {kind : GroupKind} : Removes (.removeGroup index) index kind
  | onlyAlias {index : Nat} {item : Alias} : Removes (.removeAlias index 0) index (.single item)

end KeywordEdit

namespace KeywordList

inductive Edited (l : KeywordList) : KeywordEdit → KeywordList → Prop where
  | reworded (words : List Text) :
    Edited l (.setGlobalFilter words) { l with globalFilter := words }
  | inserted (index : Nat) (kind : GroupKind) (h : kind.isWritable = true) :
    Edited l (.insertGroup index kind)
      { l with groups :=
          Group.renumber (l.groups.insertIdx (min index l.groups.length) (.ofKind kind)) }
  | removed {e : KeywordEdit} {index : Nat} {g : Group} (hg : l.groups[index]? = some g)
    (h : e.Removes index g.kind) :
    Edited l e
      { l with groups :=
          Group.renumber (l.groups.take index ++ g.inheritBlank (l.groups.drop (index + 1))) }
  | moved {source target : Nat} {g : Group} (hg : l.groups[source]? = some g)
    (htarget : target < l.groups.length) (hne : source ≠ target) :
    Edited l (.moveGroup source target)
      { l with groups :=
          Group.renumber ((l.groups.eraseIdx source).insertIdx target { g with related := none }) }
  | stayed {index : Nat} (h : index < l.groups.length) : Edited l (.moveGroup index index) l
  | recast {e : KeywordEdit} {index : Nat} {g : Group} {kind : GroupKind}
    (hg : l.groups[index]? = some g) (h : e.Recasts index g.kind kind) :
    Edited l e { l with groups := l.groups.set index { g with kind } }

variable {l l' : KeywordList} {e : KeywordEdit} {index : Nat}

/-! ## Accepted edits -/

theorem edited_changeKind? {change : GroupKind → Option GroupKind}
    (hchange : ∀ old kind, (l.groups[index]?).map Group.kind = some old →
      change old = some kind → e.Recasts index old kind)
    (hl : l.changeKind? index change = some l') : Edited l e l' := by
  obtain ⟨g, hg, hmap⟩ := Option.bind_eq_some_iff.mp hl
  obtain ⟨kind, hkind, rfl⟩ := Option.map_eq_some_iff.mp hmap
  exact .recast hg (hchange g.kind kind (congrArg (Option.map Group.kind) hg) hkind)

theorem edited_removeGroup?
    (he : ∀ kind, (l.groups[index]?).map Group.kind = some kind → e.Removes index kind)
    (hl : l.removeGroup? index = some l') : Edited l e l' := by
  unfold removeGroup? at hl
  split at hl
  · cases hl
  · next g hg =>
      obtain rfl := Option.some.inj hl
      exact .removed hg (he g.kind (congrArg (Option.map Group.kind) hg))

theorem edited_insertGroup? {kind : GroupKind}
    (hl : (KeywordEdit.insertGroup index kind).run? l = some l') :
    Edited l (.insertGroup index kind) l' := by
  obtain ⟨⟨landed, inserted⟩, hinsert, rfl⟩ := Option.map_eq_some_iff.mp hl
  obtain ⟨hkind, hsome⟩ := Option.ite_none_right_eq_some.mp hinsert
  obtain ⟨-, rfl⟩ := Prod.mk.inj (Option.some.inj hsome)
  exact .inserted index kind hkind

theorem edited_moveGroup? {source target : Nat} (hl : l.moveGroup? source target = some l') :
    Edited l (.moveGroup source target) l' := by
  unfold moveGroup? at hl
  split at hl
  · cases hl
  · next g hg =>
      obtain ⟨htarget, hl⟩ := Option.ite_none_left_eq_some.mp hl
      split at hl
      · next hsame =>
          obtain rfl := Option.some.inj hl
          subst hsame
          exact .stayed (Nat.lt_of_not_le htarget)
      · next hne =>
          obtain rfl := Option.some.inj hl
          exact .moved hg (Nat.lt_of_not_le htarget) hne

theorem edited_setKeywords? {keywords : List Text}
    (hl : l.setKeywords? index keywords = some l') :
    Edited l (.setKeywords index keywords) l' := by
  obtain ⟨hkeywords, hl⟩ := Option.ite_none_right_eq_some.mp hl
  refine edited_changeKind? (fun old kind _ hchange => ?_) hl
  cases old with
  | plain old =>
      obtain ⟨hne, hsome⟩ := Option.ite_none_left_eq_some.mp hchange
      obtain rfl := Option.some.inj hsome
      exact .plainKeywords (mt List.isEmpty_iff.mpr hne) hkeywords
  | named name old =>
      obtain rfl := Option.some.inj hchange
      exact .namedKeywords hkeywords
  | single item => cases hchange
  | cluster items => cases hchange

theorem edited_renameGroup? {name : Text} (hl : l.renameGroup? index name = some l') :
    Edited l (.renameGroup index name) l' := by
  obtain ⟨hname, hl⟩ := Option.ite_none_right_eq_some.mp hl
  refine edited_changeKind? (fun old kind _ hchange => ?_) hl
  cases old with
  | plain keywords =>
      obtain rfl := Option.some.inj hchange
      exact .named hname
  | named old keywords =>
      obtain rfl := Option.some.inj hchange
      exact .renamed hname
  | single item => cases hchange
  | cluster items => cases hchange

theorem edited_addAlias? {item : Alias} (hl : l.addAlias? index item = some l') :
    Edited l (.addAlias index item) l' := by
  obtain ⟨hitem, hl⟩ := Option.ite_none_right_eq_some.mp hl
  refine edited_changeKind? (fun old kind _ hchange => ?_) hl
  cases old with
  | plain keywords => cases hchange
  | named name keywords => cases hchange
  | single first =>
      obtain rfl := Option.some.inj hchange
      exact .secondAlias hitem
  | cluster items =>
      obtain rfl := Option.some.inj hchange
      exact .anotherAlias hitem

theorem edited_removeAlias? {item : Nat} (hl : l.removeAlias? index item = some l') :
    Edited l (.removeAlias index item) l' := by
  unfold removeAlias? at hl
  split at hl
  · next only honly =>
      obtain ⟨rfl, hl⟩ := Option.ite_none_right_eq_some.mp hl
      refine edited_removeGroup? (fun kind hkind => ?_) hl
      obtain rfl := Option.some.inj (honly.symm.trans hkind)
      exact .onlyAlias
  · next items hitems =>
      obtain ⟨hitem, hl⟩ := Option.ite_none_right_eq_some.mp hl
      refine edited_changeKind? (fun old kind hold hchange => ?_) hl
      obtain rfl := Option.some.inj (hitems.symm.trans hold)
      obtain rfl := Option.some.inj hchange
      exact .lessAlias hitem
  · cases hl

theorem edited_of_run? (hl : e.run? l = some l') : Edited l e l' := by
  cases e with
  | setGlobalFilter words =>
      obtain rfl := Option.some.inj hl
      exact .reworded words
  | insertGroup index kind => exact edited_insertGroup? hl
  | removeGroup index => exact edited_removeGroup? (fun _ _ => .group) hl
  | moveGroup source target => exact edited_moveGroup? hl
  | setKeywords index keywords => exact edited_setKeywords? hl
  | renameGroup index name => exact edited_renameGroup? hl
  | addAlias index item => exact edited_addAlias? hl
  | removeAlias index item => exact edited_removeAlias? hl

/-- An edit is accepted when what its case asks for holds. -/
theorem Edited.run?_eq (h : Edited l e l') : e.run? l = some l' := by
  cases h with
  | reworded words => rfl
  | inserted index kind hkind => simp [KeywordEdit.run?, insertGroup?, hkind]
  | @removed _ index g hg hremoves =>
      have hremove : l.removeGroup? index = some
          { l with groups :=
              Group.renumber (l.groups.take index ++
                g.inheritBlank (l.groups.drop (index + 1))) } := by
        simp [removeGroup?, hg]
      generalize hkind : g.kind = kind at hremoves
      cases hremoves with
      | group => exact hremove
      | onlyAlias => simpa [KeywordEdit.run?, removeAlias?, hg, hkind] using hremove
  | moved hg htarget hne =>
      simp [KeywordEdit.run?, moveGroup?, hg, Nat.not_le_of_lt htarget, hne]
  | stayed hindex => simp [KeywordEdit.run?, moveGroup?, hindex]
  | @recast _ index g kind hg hrecasts =>
      generalize hold : g.kind = old at hrecasts
      cases hrecasts with
      | plainKeywords hne hkeywords =>
          simp [KeywordEdit.run?, setKeywords?, changeKind?, hg, hold, hne, hkeywords]
      | namedKeywords hkeywords =>
          simp [KeywordEdit.run?, setKeywords?, changeKind?, hg, hold, hkeywords]
      | named hname => simp [KeywordEdit.run?, renameGroup?, changeKind?, hg, hold, hname]
      | renamed hname => simp [KeywordEdit.run?, renameGroup?, changeKind?, hg, hold, hname]
      | secondAlias hitem => simp [KeywordEdit.run?, addAlias?, changeKind?, hg, hold, hitem]
      | anotherAlias hitem => simp [KeywordEdit.run?, addAlias?, changeKind?, hg, hold, hitem]
      | lessAlias hitem => simp [KeywordEdit.run?, removeAlias?, changeKind?, hg, hold, hitem]

/-- An edit is accepted with a list exactly when it leaves that list. -/
theorem run?_eq_some_iff : e.run? l = some l' ↔ Edited l e l' :=
  ⟨edited_of_run?, Edited.run?_eq⟩

end KeywordList

end Marginalia.Keywords
