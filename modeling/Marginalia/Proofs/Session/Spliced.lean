import Marginalia.Proofs.Text.Splices
import Marginalia.Proofs.Yaml.Isolation

/-!
# A session changes a text like the text alone

The plain form of a change applies its edits to a text at once.  A session gives
them to its buffer, which leaves out the edits that change nothing and keeps
track of where the others land.  Wherever the plain form gives a text, which it
always does for a field and for a list, the session has the same text
afterwards.
-/

namespace Marginalia

namespace ConfigEdit

/-- The text after a change that is made without a session.  A miss leaves the
text as it is; edits that overlap give none. -/
def textAfter? (t : Text) : ConfigEdit → Option Text
  | setField module path value =>
    match Yaml.Patch.setScalar t module path value with
    | .ok e => some (e.apply t)
    | .error _ => some t
  | replaceList module path items =>
    match Yaml.Patch.replaceList t module path items with
    | .ok es => Edit.applyAll? es t
    | .error _ => some t
  | reorder module orderPath mapPath entries =>
    match Yaml.Patch.reorder t module orderPath mapPath entries with
    | .ok es => Edit.applyAll? es t
    | .error _ => some t

variable {t : Text} {es : List Edit}

theorem span_le_of_edits {change : ConfigEdit} (h : change.edits t = .ok es) :
    ∀ e ∈ es, e.span.start ≤ e.span.stop := by
  obtain ⟨range, -, hlines⟩ := Yaml.inLines_edits h
  exact fun e he => (hlines e he).2.1

theorem apart_setField {module path : Text} {value : Yaml.Scalar}
    (h : (setField module path value).edits t = .ok es) :
    ∃ e, Yaml.Patch.setScalar t module path value = .ok e ∧ es = [e] ∧ Edit.Apart t [e] := by
  simp only [edits, Except.map] at h
  split at h
  · cases h
  · next e hset =>
      obtain ⟨range, index, l, k, -, hkey, he⟩ := Yaml.Patch.exists_of_setScalar_eq_ok hset
      have hline := (Yaml.Patch.keyLine_eq_ok_iff.mp hkey).1
      refine ⟨e, hset, (Except.ok.inj h).symm, ?_⟩
      rw [he]
      refine ⟨?_, Yaml.Patch.onBoundaries_contentSpan hline _, List.isChain_singleton _⟩
      intro d hd
      exact ((Yaml.Patch.chain_contentSpan hline _).within hd).2.1

theorem apart_replaceList {module path : Text} {items : List Yaml.ListItem}
    (h : Yaml.Patch.replaceList t module path items = .ok es) : Edit.Apart t es := by
  obtain ⟨range, index, l, k, hlocate, hkey, -, rfl⟩ := Yaml.Patch.exists_of_replaceList_eq_ok h
  have hline := (Yaml.Patch.keyLine_eq_ok_iff.mp hkey).1
  have hstop := (Yaml.Outline.locate_bounds hlocate).2.1
  have hchain := Yaml.Patch.chain_blockEdits .sequence hline hstop k
    (items.flatMap Yaml.ListItem.render) ['[', ']']
  apply Edit.apart_of_fitsSorted (fun e he => (hchain.within he).2.1)
  exact Yaml.Patch.fitsSorted_blockEdits .sequence hline hstop k
    (items.flatMap Yaml.ListItem.render) ['[', ']']

/-- Where edits can be made at once, they do not overlap. -/
theorem apart_of_applyAll? {change : ConfigEdit} {u : Text} (h : change.edits t = .ok es)
    (hu : Edit.applyAll? es t = some u) : Edit.Apart t es ∧ u = Edit.applyAll es t := by
  unfold Edit.applyAll? at hu
  split at hu
  · next hfits =>
      exact ⟨Edit.apart_of_fitsSorted (span_le_of_edits h) hfits, (Option.some.inj hu).symm⟩
  · cases hu

/-- The text after a change is the text before it, or what edits give that do
not overlap. -/
theorem textAfter?_eq_some {change : ConfigEdit} {u : Text} (h : change.textAfter? t = some u) :
    (change.edits t).toOption = none ∧ u = t ∨
      ∃ es, (change.edits t).toOption = some es ∧ Edit.Apart t es ∧ u = Edit.applyAll es t := by
  cases change with
  | setField module path value =>
      cases hset : Yaml.Patch.setScalar t module path value with
      | error miss =>
          simp only [textAfter?, hset, Option.some.injEq] at h
          exact Or.inl ⟨by simp [edits, hset, Except.map, Except.toOption], h.symm⟩
      | ok e =>
          simp only [textAfter?, hset, Option.some.injEq] at h
          have hedits : (setField module path value).edits t = .ok [e] := by
            simp [edits, hset, Except.map]
          obtain ⟨e', hset', -, hapart⟩ := apart_setField hedits
          obtain rfl : e = e' := Except.ok.inj (hset.symm.trans hset')
          refine Or.inr ⟨[e], by simp [hedits, Except.toOption], hapart, ?_⟩
          rw [← h]
          simp [Edit.apply, Edit.applyAll, Edit.sortByStart, Edit.insertByStart, Edit.applySorted,
            Text.slice]
  | replaceList module path items =>
      cases hlist : Yaml.Patch.replaceList t module path items with
      | error miss =>
          simp only [textAfter?, hlist, Option.some.injEq] at h
          exact Or.inl ⟨by simp [edits, hlist, Except.toOption], h.symm⟩
      | ok es =>
          simp only [textAfter?, hlist] at h
          have hedits : (replaceList module path items).edits t = .ok es := hlist
          obtain ⟨hapart, hu⟩ := apart_of_applyAll? hedits h
          exact Or.inr ⟨es, by simp [hedits, Except.toOption], hapart, hu⟩
  | reorder module orderPath mapPath entries =>
      cases horder : Yaml.Patch.reorder t module orderPath mapPath entries with
      | error miss =>
          simp only [textAfter?, horder, Option.some.injEq] at h
          exact Or.inl ⟨by simp [edits, horder, Except.toOption], h.symm⟩
      | ok es =>
          simp only [textAfter?, horder] at h
          have hedits : (reorder module orderPath mapPath entries).edits t = .ok es := horder
          obtain ⟨hapart, hu⟩ := apart_of_applyAll? hedits h
          exact Or.inr ⟨es, by simp [hedits, Except.toOption], hapart, hu⟩

/-- A field or a list is always changed, or left as it is. -/
theorem isSome_textAfter? (t module path : Text) (value : Yaml.Scalar)
    (items : List Yaml.ListItem) :
    ((setField module path value).textAfter? t).isSome = true ∧
      ((replaceList module path items).textAfter? t).isSome = true := by
  constructor
  · cases hset : Yaml.Patch.setScalar t module path value <;> simp [textAfter?, hset]
  · cases hlist : Yaml.Patch.replaceList t module path items with
    | error miss => simp [textAfter?, hlist]
    | ok es => simpa [textAfter?, hlist] using (apart_replaceList hlist).applies.1

end ConfigEdit

namespace Session

/-- A session has the text that the plain form of a change gives. -/
theorem text_edit_eq_of_textAfter? (s : Session ConfigView) {change : ConfigEdit} {u : Text}
    (now : Nat) (h : change.textAfter? s.text = some u) : (s.edit change now).2.text = u := by
  have htext : (s.edit change now).2.text =
      (s.buffer.apply (((change.edits s.text).toOption).getD [])).2.text := rfl
  rw [htext]
  rcases ConfigEdit.textAfter?_eq_some h with ⟨hmiss, hu⟩ | ⟨es, hes, hapart, hu⟩
  · rw [hmiss, hu]
    simp [Buffer.apply, Edit.sortByStart, Session.text]
  · rw [hes, hu]
    exact (Buffer.splices_of_apart hapart).text_eq

/-- Edits that do not overlap give one text, whether they are applied in one
pass, from the last to the first, or by a buffer that drops those that change
nothing; and the text that a session has after a change is the one that the
change gives without a session, as it always does for a field and for a list. -/
theorem applyAll_eq_apply {t : Text} {es : List Edit} (h : Edit.Apart t es) :
    Edit.applyAll? es t = some (Edit.applyAll es t) ∧
      Edit.applyAll es t = (Edit.sortByStart es).foldr Edit.apply t ∧
      (∀ b : Buffer, b.text = t → b.Splices es) ∧
      (∀ (s : Session ConfigView) (change : ConfigEdit) (now : Nat) (u : Text),
        change.textAfter? s.text = some u → (s.edit change now).2.text = u) ∧
      ∀ (t module path : Text) (value : Yaml.Scalar) (items : List Yaml.ListItem),
        ((ConfigEdit.setField module path value).textAfter? t).isSome = true ∧
          ((ConfigEdit.replaceList module path items).textAfter? t).isSome = true := by
  have hzero := Edit.isBoundary_zero t
  have hsome := h.applies.1
  refine ⟨?_, ?_, ?_, ?_, ConfigEdit.isSome_textAfter?⟩
  · unfold Edit.applyAll? at hsome ⊢
    split at hsome
    · next hfits => rw [if_pos hfits]
    · cases hsome
  · have hfold := Edit.foldr_apply hzero h.onBoundaries_sortByStart h.chain
    rw [hfold, Text.before_zero, List.nil_append, Edit.applyAll]
  · rintro b rfl
    exact Buffer.splices_of_apart h
  · exact fun s change now u hu => text_edit_eq_of_textAfter? s now hu

/-- A deletion, an edit that changes nothing, and two insertions at one
place. -/
theorem applyAll_eq_apply_mixed :
    let t : Text := "abcdef".toList
    let es : List Edit :=
      [⟨⟨4, 4⟩, "X".toList⟩, ⟨⟨0, 2⟩, []⟩, ⟨⟨2, 4⟩, "cd".toList⟩, ⟨⟨4, 4⟩, "YZ".toList⟩]
    Edit.applyAll es t = "cdXYZef".toList ∧
      Edit.applyAll es t = (Edit.sortByStart es).foldr Edit.apply t ∧
      (Buffer.ofText t).apply es =
        (⟨[⟨0, 0⟩, ⟨2, 3⟩, ⟨3, 5⟩], 1⟩, ⟨"cdXYZef".toList, 1, 0⟩) ∧
      (Buffer.ofText t).Splices es := by
  intro t es
  have hapart : Edit.Apart t es :=
    ⟨by decide, by unfold Edit.OnBoundaries; decide, by decide⟩
  obtain ⟨-, hfold, hsplices, -⟩ := applyAll_eq_apply hapart
  exact ⟨by decide, hfold, by decide, hsplices (Buffer.ofText t) rfl⟩

end Session

end Marginalia
