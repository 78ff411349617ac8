import Marginalia.Proofs.Keywords.Kept

/-!
# Edits of a list where it stands

An edit of a form changes the list step by step: a group is taken out and put
back elsewhere, the keywords of a group are taken out before it gets a name, an
alias is dropped and the last one left is taken out of its cluster.  An edit
that is refused answers before the first of its steps, so the list is what it
was; an edit that is made leaves the list that `KeywordEdit.run?` gives.
-/

namespace Marginalia.Keywords

abbrev InPlace := StateM KeywordList

namespace InPlace

variable {α β : Type} (l : KeywordList)

/-- What a change answers, and the list that it leaves. -/
def on (m : InPlace α) : α × KeywordList :=
  Id.run (m.run l)

def overGroups (change : List Group → List Group) : InPlace Unit :=
  modify fun l => { l with groups := change l.groups }

def overGroup (index : Nat) (change : Group → Group) : InPlace Unit :=
  overGroups (·.modify index change)

def putKind (index : Nat) (kind : GroupKind) : InPlace Unit :=
  overGroup index fun g => { g with kind }

def groupAt? (index : Nat) : InPlace (Option Group) := do
  return (← get).groups[index]?

def count : InPlace Nat := do
  return (← get).groups.length

def setGlobalFilter (words : List Text) : InPlace Bool := do
  modify fun l => { l with globalFilter := words }
  return true

/-- A new group, put at `index` or at the end. -/
def insertGroup (index : Nat) (kind : GroupKind) : InPlace Bool := do
  if !kind.isWritable then return false
  let index := min index (← count)
  overGroups (·.insertIdx index (.ofKind kind))
  overGroups Group.renumber
  return true

/-- A group is taken out; then the next one may get its blank line. -/
def removeGroup (index : Nat) : InPlace Bool := do
  match ← groupAt? index with
  | none => return false
  | some removed =>
    overGroups (·.eraseIdx index)
    if removed.comments.head? = some [] then
      overGroup index fun next =>
        if next.comments.isEmpty then { next with comments := [[]] } else next
    overGroups Group.renumber
    return true

/-- A group is taken out, leaves its run and is put back. -/
def moveGroup (source target : Nat) : InPlace Bool := do
  if (← count) ≤ source ∨ (← count) ≤ target then return false
  if source = target then return true
  match ← groupAt? source with
  | none => return false
  | some g =>
    overGroups (·.eraseIdx source)
    overGroups (·.insertIdx target { g with related := none })
    overGroups Group.renumber
    return true

def setKeywords (index : Nat) (keywords : List Text) : InPlace Bool := do
  if !keywords.all isKeyword then return false
  match (← groupAt? index).map Group.kind with
  | some (.plain _) =>
    if keywords.isEmpty then return false
    putKind index (.plain keywords)
    return true
  | some (.named name _) =>
    putKind index (.named name keywords)
    return true
  | _ => return false

/-- A named group gets another name; the keywords of a plain group are taken out
of it before it gets a name. -/
def renameGroup (index : Nat) (name : Text) : InPlace Bool := do
  match (← groupAt? index).map Group.kind with
  | none => return false
  | some kind =>
    if !isGroupName name then return false
    match kind with
    | .named _ keywords =>
      putKind index (.named name keywords)
      return true
    | .plain keywords =>
      putKind index (.plain [])
      putKind index (.named name keywords)
      return true
    | _ => return false

def addAlias (index : Nat) (item : Alias) : InPlace Bool := do
  if !item.isWritable then return false
  match (← groupAt? index).map Group.kind with
  | some (.single first) =>
    putKind index (.cluster [first, item])
    return true
  | some (.cluster items) =>
    putKind index (.cluster (items ++ [item]))
    return true
  | _ => return false

/-- An alias is dropped from its cluster; one that is left alone is taken out of
it. -/
def removeAlias (index item : Nat) : InPlace Bool := do
  match (← groupAt? index).map Group.kind with
  | some (.single _) => if item = 0 then removeGroup index else return false
  | some (.cluster items) =>
    if items.length ≤ item then return false
    putKind index (.cluster (items.eraseIdx item))
    match items.eraseIdx item with
    | [last] =>
      putKind index (.cluster [])
      putKind index (.single last)
    | _ => pure ()
    return true
  | _ => return false

end InPlace

/-- An edit, made where the list stands; the answer says whether it was made. -/
def KeywordEdit.inPlace : KeywordEdit → InPlace Bool
  | setGlobalFilter words => InPlace.setGlobalFilter words
  | insertGroup index kind => InPlace.insertGroup index kind
  | removeGroup index => InPlace.removeGroup index
  | moveGroup source target => InPlace.moveGroup source target
  | setKeywords index keywords => InPlace.setKeywords index keywords
  | renameGroup index name => InPlace.renameGroup index name
  | addAlias index item => InPlace.addAlias index item
  | removeAlias index item => InPlace.removeAlias index item

namespace InPlace

variable {α β : Type} (l : KeywordList)

/-! ## Steps -/

@[simp] theorem on_pure (a : α) : on l (pure a) = (a, l) := rfl

@[simp] theorem on_bind (m : InPlace α) (next : α → InPlace β) :
    on l (m >>= next) = on (on l m).2 (next (on l m).1) := rfl

@[simp] theorem on_overGroups (change : List Group → List Group) :
    on l (overGroups change) = ((), { l with groups := change l.groups }) := rfl

@[simp] theorem on_groupAt? (index : Nat) : on l (groupAt? index) = (l.groups[index]?, l) := rfl

@[simp] theorem on_count : on l count = (l.groups.length, l) := rfl

/-! ## Edits -/

/-- The answer of an edit with the list that it leaves: a refused edit leaves
the list. -/
def answer (l : KeywordList) : Option KeywordList → Bool × KeywordList
  | some edited => (true, edited)
  | none => (false, l)

theorem on_insertGroup (index : Nat) (kind : GroupKind) :
    on l (insertGroup index kind) = answer l ((l.insertGroup? index kind).map (·.2)) := by
  unfold insertGroup KeywordList.insertGroup?
  cases kind.isWritable <;> rfl

/-- The groups around a removed one, the next of them with its blank line. -/
theorem take_append_inheritBlank (groups : List Group) (index : Nat) (removed : Group) :
    groups.take index ++ removed.inheritBlank (groups.drop (index + 1)) =
      if removed.comments.head? = some [] then
        (groups.eraseIdx index).modify index fun next =>
          if next.comments.isEmpty then { next with comments := [[]] } else next
      else groups.eraseIdx index := by
  rw [List.eraseIdx_eq_take_drop_succ]
  cases hrest : groups.drop (index + 1) with
  | nil => simp [Group.inheritBlank, List.modify_eq_take_drop, List.take_take]
  | cons next rest =>
      have hlength : (groups.take index).length = index := by
        have hdrop := congrArg List.length hrest
        rw [List.length_drop, List.length_cons] at hdrop
        rw [List.length_take]
        omega
      rw [List.modify_eq_take_drop, List.take_left' hlength, List.drop_left' hlength,
        List.modifyHead_cons, Group.inheritBlank]
      by_cases hblank : removed.comments.head? = some [] <;>
        by_cases hempty : next.comments.isEmpty = true <;> simp [hblank, hempty]

theorem on_removeGroup (index : Nat) :
    on l (removeGroup index) = answer l (l.removeGroup? index) := by
  unfold removeGroup KeywordList.removeGroup?
  rw [on_bind, on_groupAt?]
  dsimp only
  cases hg : l.groups[index]? with
  | none => rfl
  | some removed =>
      simp only [take_append_inheritBlank]
      by_cases hblank : removed.comments.head? = some []
      · simp only [hblank, if_true]
        rfl
      · simp only [hblank, if_false]
        rfl

theorem on_moveGroup (source target : Nat) :
    on l (moveGroup source target) = answer l (l.moveGroup? source target) := by
  unfold moveGroup KeywordList.moveGroup?
  simp only [on_bind, on_count]
  cases hg : l.groups[source]? with
  | none =>
      have hbound : l.groups.length ≤ source := List.getElem?_eq_none_iff.mp hg
      simp only [hbound, true_or, if_true]
      rfl
  | some g =>
      have hsource : ¬l.groups.length ≤ source :=
        Nat.not_le.mpr (List.getElem?_eq_some_iff.mp hg).1
      by_cases htarget : l.groups.length ≤ target
      · simp only [htarget, or_true, if_true]
        rfl
      · by_cases hsame : source = target
        · simp only [htarget, hsame, or_self, if_false, if_true]
          rfl
        · simp only [hsource, htarget, hsame, or_self, if_false, on_bind, on_groupAt?, hg]
          rfl

section Kind

variable {index : Nat} {g : Group} (hg : l.groups[index]? = some g)

include hg

theorem on_putKind (kind : GroupKind) :
    on l (putKind index kind) = ((), { l with groups := l.groups.set index { g with kind } }) := by
  have hset : l.groups.modify index (fun g => { g with kind }) =
      l.groups.set index { g with kind } := by
    obtain ⟨hlt, hget⟩ := List.getElem?_eq_some_iff.mp hg
    apply List.ext_getElem?
    intro j
    rw [List.getElem?_modify, List.getElem?_set]
    split
    · next hj =>
        subst hj
        simp [hlt, hget]
    · simp
  rw [putKind, overGroup, on_overGroups, hset]

theorem on_putKind_return (kind : GroupKind) :
    on l (do putKind index kind; return true) =
      (true, { l with groups := l.groups.set index { g with kind } }) := by
  rw [on_bind, on_putKind l hg, on_pure]

theorem getElem?_set_kind (kind : GroupKind) :
    (l.groups.set index { g with kind })[index]? = some { g with kind } :=
  List.getElem?_set_self (List.getElem?_eq_some_iff.mp hg).1

/-- Of two contents that are put in one place, the second stays. -/
theorem on_putKind_putKind_return (kind kind' : GroupKind) :
    on l (do putKind index kind; putKind index kind'; return true) =
      (true, { l with groups := l.groups.set index { g with kind := kind' } }) := by
  have hagain := on_putKind_return { l with groups := l.groups.set index { g with kind } }
    (getElem?_set_kind l hg kind) kind'
  rw [on_bind, on_putKind l hg, hagain, List.set_set]

end Kind

/-! ## Edits of one group -/

theorem on_setKeywords (index : Nat) (keywords : List Text) :
    on l (setKeywords index keywords) = answer l (l.setKeywords? index keywords) := by
  unfold setKeywords KeywordList.setKeywords? KeywordList.changeKind?
  cases keywords.all isKeyword with
  | false => rfl
  | true =>
      simp only [Bool.not_true, Bool.false_eq_true, if_false, if_true, on_bind, on_groupAt?]
      cases hg : l.groups[index]? with
      | none => rfl
      | some g =>
          obtain ⟨kind, start, comments, related⟩ := g
          cases kind with
          | plain old =>
              cases keywords.isEmpty with
              | true => rfl
              | false => exact on_putKind_return l hg (.plain keywords)
          | named name old => exact on_putKind_return l hg (.named name keywords)
          | single first => rfl
          | cluster items => rfl

theorem on_renameGroup (index : Nat) (name : Text) :
    on l (renameGroup index name) = answer l (l.renameGroup? index name) := by
  unfold renameGroup KeywordList.renameGroup? KeywordList.changeKind?
  rw [on_bind, on_groupAt?]
  cases hg : l.groups[index]? with
  | none => cases isGroupName name <;> rfl
  | some g =>
      cases isGroupName name with
      | false => rfl
      | true =>
          obtain ⟨kind, start, comments, related⟩ := g
          cases kind with
          | plain keywords =>
              exact on_putKind_putKind_return l hg (.plain []) (.named name keywords)
          | named old keywords => exact on_putKind_return l hg (.named name keywords)
          | single first => rfl
          | cluster items => rfl

theorem on_addAlias (index : Nat) (item : Alias) :
    on l (addAlias index item) = answer l (l.addAlias? index item) := by
  unfold addAlias KeywordList.addAlias? KeywordList.changeKind?
  cases item.isWritable with
  | false => rfl
  | true =>
      simp only [Bool.not_true, Bool.false_eq_true, if_false, if_true, on_bind, on_groupAt?]
      cases hg : l.groups[index]? with
      | none => rfl
      | some g =>
          obtain ⟨kind, start, comments, related⟩ := g
          cases kind with
          | plain keywords => rfl
          | named name keywords => rfl
          | single first => exact on_putKind_return l hg (.cluster [first, item])
          | cluster items => exact on_putKind_return l hg (.cluster (items ++ [item]))

theorem on_removeAlias (index item : Nat) :
    on l (removeAlias index item) = answer l (l.removeAlias? index item) := by
  unfold removeAlias KeywordList.removeAlias? KeywordList.changeKind?
  rw [on_bind, on_groupAt?]
  cases hg : l.groups[index]? with
  | none => rfl
  | some g =>
      obtain ⟨kind, start, comments, related⟩ := g
      cases kind with
      | plain keywords => rfl
      | named name keywords => rfl
      | single first =>
          by_cases hitem : item = 0
          · simp only [Option.map_some, hitem, if_true]
            exact on_removeGroup l index
          · simp only [Option.map_some, hitem, if_false]
            rfl
      | cluster items =>
          by_cases hitem : items.length ≤ item
          · simp only [Option.map_some, hitem, Nat.not_lt.mpr hitem, if_true, if_false]
            rfl
          · simp only [Option.map_some, hitem, Nat.not_le.mp hitem, if_true, if_false]
            rcases items.eraseIdx item with _ | ⟨last, _ | ⟨next, rest⟩⟩
            · exact on_putKind_return l hg (.cluster [])
            · -- The alias that is left alone leaves an empty cluster behind for a moment.
              have hlast := on_putKind_putKind_return
                { l with groups := l.groups.set index ⟨.cluster [last], start, comments, related⟩ }
                (getElem?_set_kind l hg (.cluster [last])) (.cluster []) (.single last)
              rw [on_bind, on_putKind l hg]
              rw [List.set_set] at hlast
              exact hlast
            · exact on_putKind_return l hg (.cluster (last :: next :: rest))

end InPlace

namespace KeywordEdit

open InPlace (on answer)

/-- An edit that is made where the list stands answers as `run?` does, with the
same list. -/
theorem on_inPlace (l : KeywordList) (e : KeywordEdit) : on l e.inPlace = answer l (e.run? l) := by
  cases e with
  | setGlobalFilter words => rfl
  | insertGroup index kind => exact InPlace.on_insertGroup l index kind
  | removeGroup index => exact InPlace.on_removeGroup l index
  | moveGroup source target => exact InPlace.on_moveGroup l source target
  | setKeywords index keywords => exact InPlace.on_setKeywords l index keywords
  | renameGroup index name => exact InPlace.on_renameGroup l index name
  | addAlias index item => exact InPlace.on_addAlias l index item
  | removeAlias index item => exact InPlace.on_removeAlias l index item

/-! ## Refused edits -/

/-- The places of groups that an edit gives. -/
def indices : KeywordEdit → List Nat
  | setGlobalFilter _ | insertGroup _ _ => []
  | moveGroup source target => [source, target]
  | removeGroup index | setKeywords index _ | renameGroup index _ | addAlias index _
  | removeAlias index _ => [index]

/-- Whether the content that an edit brings along is read back. -/
def isReadable : KeywordEdit → Bool
  | insertGroup _ kind => kind.isWritable
  | setKeywords _ keywords => keywords.all isKeyword
  | renameGroup _ name => isGroupName name
  | addAlias _ item => item.isWritable
  | setGlobalFilter _ | removeGroup _ | moveGroup _ _ | removeAlias _ _ => true

/-- Whether a group has the shape that an edit of it asks for. -/
def fits : KeywordEdit → GroupKind → Bool
  | setKeywords _ keywords, .plain _ => !keywords.isEmpty
  | setKeywords _ _, .named _ _ => true
  | renameGroup _ _, .plain _ | renameGroup _ _, .named _ _ => true
  | addAlias _ _, .single _ | addAlias _ _, .cluster _ => true
  | removeAlias _ item, .single _ => item == 0
  | removeAlias _ item, .cluster items => decide (item < items.length)
  | setKeywords _ _, _ | renameGroup _ _, _ | addAlias _ _, _ | removeAlias _ _, _ => false
  | _, _ => true

/-- A list does not take an edit. -/
inductive Refuses (l : KeywordList) (e : KeywordEdit) : Prop
  /-- There is no group at a place. -/
  | outOfRange {index : Nat} (hindex : index ∈ e.indices) (h : l.groups.length ≤ index)
  /-- The new content would be read back as something else. -/
  | unreadable (h : e.isReadable = false)
  /-- The group at a place has another shape. -/
  | otherShape {index : Nat} {g : Group} (hindex : index ∈ e.indices)
      (hg : l.groups[index]? = some g) (h : e.fits g.kind = false)

variable {l : KeywordList} {e : KeywordEdit}

/-- What it takes for an edit to be made. -/
theorem not_refuses_iff : ¬e.Refuses l ↔ e.isReadable = true ∧
    ∀ index ∈ e.indices, ∃ g, l.groups[index]? = some g ∧ e.fits g.kind = true := by
  constructor
  · intro h
    refine ⟨?_, fun index hindex => ?_⟩
    · by_contra hreadable
      exact h (.unreadable (by simpa using hreadable))
    · cases hg : l.groups[index]? with
      | none => exact absurd (.outOfRange hindex (List.getElem?_eq_none_iff.mp hg)) h
      | some g =>
          refine ⟨g, rfl, ?_⟩
          by_contra hfits
          exact h (.otherShape hindex hg (by simpa using hfits))
  · rintro ⟨hreadable, hplaces⟩ h
    cases h with
    | outOfRange hindex hbound =>
        obtain ⟨g, hg, -⟩ := hplaces _ hindex
        rw [List.getElem?_eq_none hbound] at hg
        cases hg
    | unreadable hunreadable =>
        rw [hreadable] at hunreadable
        cases hunreadable
    | otherShape hindex hg hother =>
        obtain ⟨g', hg', hfits⟩ := hplaces _ hindex
        obtain rfl := Option.some.inj (hg.symm.trans hg')
        rw [hfits] at hother
        cases hother

/-- A change of a content is made when it was checked and the group takes it. -/
theorem isSome_changeKind?_iff {index : Nat} {checked : Bool}
    {change : GroupKind → Option GroupKind} :
    (if checked then l.changeKind? index change else none).isSome = true ↔
      checked = true ∧ ∃ g, l.groups[index]? = some g ∧ (change g.kind).isSome = true := by
  rw [KeywordList.changeKind?]
  cases checked with
  | false => simp
  | true =>
      cases l.groups[index]? with
      | none => simp
      | some g => simp

/-- An edit is made unless the list refuses it. -/
theorem isSome_run?_iff : (e.run? l).isSome = true ↔ ¬e.Refuses l := by
  rw [not_refuses_iff]
  cases e with
  | setGlobalFilter words => simp [run?, isReadable, indices]
  | insertGroup index kind =>
      simp only [run?, isReadable, indices, KeywordList.insertGroup?]
      cases kind.isWritable <;> simp
  | removeGroup index =>
      simp only [run?, isReadable, indices, KeywordList.removeGroup?, List.forall_mem_singleton]
      cases l.groups[index]? <;> simp [fits]
  | moveGroup source target =>
      simp only [run?, isReadable, indices, KeywordList.moveGroup?, List.forall_mem_cons, fits,
        and_true, ← List.getElem?_eq_none_iff]
      cases l.groups[source]? with
      | none => simp
      | some g =>
          cases l.groups[target]? with
          | none => simp
          | some g' => by_cases hsame : source = target <;> simp [hsame]
  | setKeywords index keywords =>
      simp only [run?, isReadable, indices, KeywordList.setKeywords?, isSome_changeKind?_iff,
        List.forall_mem_singleton]
      refine and_congr_right fun _ => exists_congr fun g => and_congr_right fun _ => ?_
      cases g.kind <;> simp [fits]
  | renameGroup index name =>
      simp only [run?, isReadable, indices, KeywordList.renameGroup?, isSome_changeKind?_iff,
        List.forall_mem_singleton]
      refine and_congr_right fun _ => exists_congr fun g => and_congr_right fun _ => ?_
      cases g.kind <;> simp [fits]
  | addAlias index item =>
      simp only [run?, isReadable, indices, KeywordList.addAlias?, isSome_changeKind?_iff,
        List.forall_mem_singleton]
      refine and_congr_right fun _ => exists_congr fun g => and_congr_right fun _ => ?_
      cases g.kind <;> simp [fits]
  | removeAlias index item =>
      simp only [run?, isReadable, indices, KeywordList.removeAlias?, List.forall_mem_singleton,
        true_and]
      cases hg : l.groups[index]? with
      | none => simp
      | some g =>
          obtain ⟨kind, start, comments, related⟩ := g
          cases kind with
          | plain keywords => simp [fits]
          | named name keywords => simp [fits]
          | single first =>
              by_cases hitem : item = 0 <;> simp [fits, hitem, KeywordList.removeGroup?, hg]
          | cluster items =>
              by_cases hitem : item < items.length <;>
                simp [fits, hitem, KeywordList.changeKind?, hg]

end KeywordEdit

end Marginalia.Keywords
