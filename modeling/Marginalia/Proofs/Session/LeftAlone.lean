import Marginalia.Proofs.Keywords.InPlace
import Marginalia.Proofs.Session.Shown
import Marginalia.Proofs.Yaml.Located

/-!
# Changes that do not apply

A change of a form that does not apply makes no edit of the text: a keyword edit
that the list refuses, and a change of the configuration that names a module or
a path that is not there, or writes a block where a scalar stands.  The session
is then what it was: text and version, whether it is saved and until when it
waits, and what is kept of the form.
-/

namespace Marginalia.Session

open Keywords (KeywordList KeywordEdit)

variable {View Change : Type} [Document View Change] {s : Session View}

/-! ## What is kept of the form -/

/-- What is kept of the form was derived from the version that the text has
now. -/
def Fresh (s : Session View) : Prop :=
  ∀ version v, s.derived = some (version, v) → version = s.buffer.version

theorem fresh_start (quiet : Nat) (t : Text) : (start quiet t : Session View).Fresh := by
  intro version v hkept
  cases hkept

theorem fresh_refresh (s : Session View) : s.refresh.Fresh := by
  intro version v hkept
  exact (congrArg Prod.fst (Option.some.inj hkept)).symm

theorem Fresh.congr {s' : Session View} (h : s.Fresh) (hderived : s'.derived = s.derived)
    (hversion : s'.buffer.version = s.buffer.version) : s'.Fresh := by
  intro version v hkept
  rw [hderived] at hkept
  rw [hversion]
  exact h version v hkept

/-- A call derives the form from the text that it leaves, or changes neither. -/
theorem preserved_fresh : Preserved fun s : Session View => s.Fresh where
  view s _ := fresh_refresh s
  edit s change now _ := by
    obtain ⟨d, hedit⟩ := edit_eq_refresh s change now
    rw [hedit]
    exact fresh_refresh _
  load s t source now _ := by
    obtain ⟨b, d, -, hload⟩ := load_eq_refresh s t source now
    rw [hload]
    exact fresh_refresh _
  flush s store clock h := by
    obtain ⟨saved, d, hflush⟩ := s.exists_flush_eq store clock
    rw [hflush]
    exact h.congr rfl rfl

/-! ## A change without edits -/

/-- A session is what it was, as far as a change of the form could tell. -/
structure LeftAlone (s s' : Session View) : Prop where
  text_eq : s'.text = s.text
  version_eq : s'.buffer.version = s.buffer.version
  isDirty_eq : s'.isDirty = s.isDirty
  deadline_eq : s'.debounce = s.debounce
  shown_eq : s'.shown = s.shown
  kept : ∀ kept, s.derived = some kept → s'.derived = some kept

theorem shown_of_derived {v : View} (h : s.derived = some (s.buffer.version, v)) :
    s.shown = v := by
  rw [shown, h]
  exact if_pos rfl

theorem Fresh.leftAlone_edit (h : s.Fresh) {change : Change}
    (hnone : Document.splices s.text s.shown change = []) (now : Nat) :
    (s.edit change now).1 = s.buffer.noop ∧ LeftAlone s (s.edit change now).2 := by
  have hpatched : s.patched change = (s.buffer.noop, s.buffer) := by
    rw [patched, hnone]
    rfl
  have hbuffer : (s.edit change now).2.buffer = s.buffer := by
    rw [buffer_edit, hpatched]
  have hderived : (s.edit change now).2.derived = some (s.buffer.version, s.shown) := by
    obtain ⟨d, hedit⟩ := edit_eq_refresh s change now
    have hshown : ({ s.view.2 with buffer := s.buffer, debounce := d } : Session View).shown =
        s.shown := shown_of_derived rfl
    rw [hedit, hpatched, ← hshown]
    rfl
  refine ⟨congrArg Prod.fst hpatched, ?_⟩
  constructor
  · rw [text, hbuffer, text]
  · rw [hbuffer]
  · rw [isDirty, hbuffer, isDirty]
  · rw [debounce_edit, hpatched]
    exact if_pos rfl
  · apply shown_of_derived
    rw [hderived, hbuffer]
  · rintro ⟨version, v⟩ hkept
    obtain rfl := h version v hkept
    rw [hderived, shown_of_derived hkept]

/-! ## Changes that do not apply -/

theorem splices_of_refuses {t : Text} {l : KeywordList} {e : KeywordEdit} (h : e.Refuses l) :
    Document.splices t l e = [] := by
  have hnone : e.run? l = none := by
    rw [← Option.not_isSome_iff_eq_none, KeywordEdit.isSome_run?_iff, not_not]
    exact h
  have hafter : e.textAfter? t l = none := by
    rw [KeywordEdit.textAfter?, hnone]
    rfl
  exact congrArg (fun after : Option Text => (after.bind (Edit.between? t)).toList) hafter

theorem splices_of_misses {t : Text} {v : ConfigView} {c : ConfigEdit} (h : c.Misses t) :
    Document.splices t v c = [] := by
  obtain ⟨miss, hmiss⟩ := ConfigEdit.exists_edits_eq_error_iff.mpr h
  exact congrArg (fun edits : Except Yaml.Miss (List Edit) => edits.toOption.getD []) hmiss

/-- A keyword edit that is made step by step answers false when the list refuses
it, and only then, and the list is what it was.  In either document, whatever
happened since the start, a change that does not apply makes no edit and leaves
the session alone. -/
theorem leftAlone_of_not_applicable :
    (∀ (l : KeywordList) (e : KeywordEdit),
      ((Keywords.InPlace.on l e.inPlace).1 = false ↔ e.Refuses l) ∧
      (e.Refuses l → (Keywords.InPlace.on l e.inPlace).2 = l)) ∧
    (∀ (quiet : Nat) (t : Text) (actions : List (Action KeywordEdit)) (e : KeywordEdit)
      (now : Nat),
      let s := (start quiet t : Session KeywordList).run actions
      e.Refuses s.shown →
        (s.edit e now).1 = s.buffer.noop ∧ LeftAlone s (s.edit e now).2) ∧
    (∀ (quiet : Nat) (t : Text) (actions : List (Action ConfigEdit)) (c : ConfigEdit) (now : Nat),
      let s := (start quiet t : Session ConfigView).run actions
      c.Misses s.text →
        (s.edit c now).1 = s.buffer.noop ∧ LeftAlone s (s.edit c now).2) := by
  refine ⟨fun l e => ?_, fun quiet t actions e now => ?_, fun quiet t actions c now => ?_⟩
  · have hmade := KeywordEdit.isSome_run?_iff (l := l) (e := e)
    rw [KeywordEdit.on_inPlace]
    cases hrun : e.run? l with
    | none =>
        rw [hrun] at hmade
        have hrefuses : e.Refuses l := by
          by_contra happlies
          exact absurd (hmade.mpr happlies) (by simp)
        exact ⟨iff_of_true rfl hrefuses, fun _ => rfl⟩
    | some edited =>
        rw [hrun] at hmade
        have happlies := hmade.mp rfl
        refine ⟨iff_of_false ?_ happlies, fun h => absurd h happlies⟩
        simp [Keywords.InPlace.answer]
  · intro s hrefuses
    have hfresh : s.Fresh := preserved_fresh.run (fresh_start quiet t) actions
    exact hfresh.leftAlone_edit (splices_of_refuses hrefuses) now
  · intro s hmisses
    have hfresh : s.Fresh := preserved_fresh.run (fresh_start quiet t) actions
    exact hfresh.leftAlone_edit (splices_of_misses hmisses) now

/-- There is no fourth group to name, a name of two lines is not taken, and a
list is not written over a scalar. -/
theorem leftAlone_of_not_applicable_rename_and_list :
    Keywords.InPlace.on (KeywordList.ofText "[WORD_GROUPS]\nA\n".toList)
      (KeywordEdit.renameGroup 3 "B".toList).inPlace =
        (false, KeywordList.ofText "[WORD_GROUPS]\nA\n".toList) ∧
    LeftAlone (start 1000 "[WORD_GROUPS]\nA\n".toList : Session KeywordList)
      ((start 1000 "[WORD_GROUPS]\nA\n".toList : Session KeywordList).edit
        (.renameGroup 0 "B\nC".toList) 5).2 ∧
    LeftAlone (start 1000 "m:\n  k: a\n".toList : Session ConfigView)
      ((start 1000 "m:\n  k: a\n".toList : Session ConfigView).edit
        (.replaceList "m".toList "k".toList []) 5).2 := by
  have hrange : (KeywordEdit.renameGroup 3 "B".toList).Refuses
      (KeywordList.ofText "[WORD_GROUPS]\nA\n".toList) :=
    .outOfRange (List.mem_singleton_self 3) (by decide)
  obtain ⟨hlist, hkeywords, hconfig⟩ := leftAlone_of_not_applicable
  obtain ⟨hanswer, hsame⟩ := hlist (KeywordList.ofText "[WORD_GROUPS]\nA\n".toList)
    (.renameGroup 3 "B".toList)
  refine ⟨Prod.ext (hanswer.mpr hrange) (hsame hrange), ?_, ?_⟩
  · exact (hkeywords 1000 _ [] (.renameGroup 0 "B\nC".toList) 5 (.unreadable (by decide))).2
  · have hlocate : (Yaml.Outline.ofText "m:\n  k: a\n".toList).locate "m".toList "k".toList =
        .ok (⟨0, 2⟩, 1) := by
      decide
    refine (hconfig 1000 _ [] (.replaceList "m".toList "k".toList []) 5 ?_).2
    exact .scalar hlocate (List.mem_singleton_self _) rfl rfl (by decide)

end Marginalia.Session
