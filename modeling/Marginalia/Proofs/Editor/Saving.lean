import Marginalia.Proofs.Editor.Selections
import Marginalia.Proofs.Session.Flush

/-!
# What a save tells

A flush answers whether it has saved.  It has not when there was nothing to
save, and it has not when the store refused the text.  What the status of a save
names is saved and stored.  What it does not name had no changes, or was refused
and is kept for the next save.
-/

namespace Marginalia

namespace Session

variable {View Change : Type} [Document View Change] {s : Session View} {store : Store}
  {clock : Clock}

/-- What a save leaves of a document, by whether the status names it as saved
and whether the store refused it. -/
structure LeftBySave (before after : Session View) (store : Store) (named refused : Prop) :
    Prop where
  saved : named → after.isDirty = false ∧
    store.load (Document.kind View) = .ok (some before.text)
  /-- What the store refused is kept, and waits to be saved again. -/
  kept : refused → after.isDirty = true ∧ after.text = before.text ∧ after.savePending = true
  clean : ¬named → ¬refused → before.isDirty = false ∧ after.isDirty = false

theorem leftBySave_flush {left : Store}
    (hstored : (s.flush store clock).1 = true →
      left.load (Document.kind View) = .ok (some s.text)) :
    s.LeftBySave (s.flush store clock).2.1 left ((s.flush store clock).1 = true)
      (s.Refused store clock) := by
  have hclean : ¬s.Refused store clock → (s.flush store clock).2.1.isDirty = false :=
    fun hrefused => Bool.eq_false_iff.mpr (mt isDirty_flush_iff.mp hrefused)
  refine ⟨fun hnamed => ⟨?_, hstored hnamed⟩, fun hrefused => ?_, fun hnamed hrefused => ?_⟩
  · exact hclean (flush_fst_iff.mp hnamed).2
  · rw [flush_of_refused hrefused]
    exact ⟨hrefused.1, rfl, rfl⟩
  · refine ⟨Bool.eq_false_iff.mpr fun hdirty => ?_, hclean hrefused⟩
    exact hnamed (flush_fst_iff.mpr ⟨hdirty, hrefused⟩)

/-- A document that is not named as saved has no changes left exactly when it
was not refused. -/
theorem LeftBySave.clean_iff {after : Session View} {named refused : Prop}
    (h : s.LeftBySave after store named refused) :
    (¬named → after.isDirty = false) ↔ ¬refused := by
  constructor
  · intro htold hrefused
    obtain ⟨hdirty, -, -⟩ := h.kept hrefused
    by_cases hnamed : named
    · rw [(h.saved hnamed).1] at hdirty
      cases hdirty
    · rw [htold hnamed] at hdirty
      cases hdirty
  · exact fun hrefused hnamed => (h.clean hnamed hrefused).2

end Session

namespace Editor

/-! ## The status of a save -/

def NamesSaved (status : Text) : DocumentKind → Prop
  | .config => status = savedStatus true false ∨ status = savedStatus true true
  | .keywords => status = savedStatus false true ∨ status = savedStatus true true

theorem savedStatus_inj : ∀ config keywords config' keywords' : Bool,
    savedStatus config keywords = savedStatus config' keywords' ↔
      config = config' ∧ keywords = keywords' := by
  decide +kernel

theorem namesSaved_config_iff (config keywords : Bool) :
    NamesSaved (savedStatus config keywords) .config ↔ config = true := by
  rw [NamesSaved, savedStatus_inj, savedStatus_inj]
  cases keywords <;> simp

theorem namesSaved_keywords_iff (config keywords : Bool) :
    NamesSaved (savedStatus config keywords) .keywords ↔ keywords = true := by
  rw [NamesSaved, savedStatus_inj, savedStatus_inj]
  cases config <;> simp

theorem savedStatus_eq_nothing_iff (config keywords : Bool) :
    savedStatus config keywords = "Nothing to save".toList ↔
      config = false ∧ keywords = false :=
  savedStatus_inj config keywords false false

/-- After a save the status tells what there was to save: that there was nothing
only when nothing was unsaved, and every document that is not named as saved has
no changes left. -/
structure TellsSave (before after : Editor) : Prop where
  nothing : after.status = "Nothing to save".toList →
    before.config.isDirty = false ∧ before.keywords.isDirty = false
  config : ¬NamesSaved after.status .config → after.config.isDirty = false
  keywords : ¬NamesSaved after.status .keywords → after.keywords.isDirty = false

section Save

variable (e : Editor) (clock : Clock)

/-- The configuration has unsaved changes that the store does not take. -/
def RefusesConfig : Prop :=
  e.config.Refused e.store clock

/-- The keyword list has unsaved changes that the store does not take behind the
configuration. -/
def RefusesKeywords : Prop :=
  e.keywords.Refused (e.config.flush e.store clock).2.2 clock

theorem namesSaved_save_config_iff :
    NamesSaved (e.save clock).status .config ↔ (e.config.flush e.store clock).1 = true := by
  rw [save_eq]
  exact namesSaved_config_iff _ _

theorem namesSaved_save_keywords_iff :
    NamesSaved (e.save clock).status .keywords ↔
      (e.keywords.flush (e.config.flush e.store clock).2.2 clock).1 = true := by
  rw [save_eq]
  exact namesSaved_keywords_iff _ _

/-- The status says that there was nothing to save exactly when there was
nothing that the store did not refuse. -/
theorem status_save_eq_nothing_iff :
    (e.save clock).status = "Nothing to save".toList ↔
      (e.config.isDirty = true → e.RefusesConfig clock) ∧
        (e.keywords.isDirty = true → e.RefusesKeywords clock) := by
  rw [save_eq]
  dsimp only
  rw [savedStatus_eq_nothing_iff, ← Bool.not_eq_true, ← Bool.not_eq_true, Session.flush_fst_iff,
    Session.flush_fst_iff, not_and_not_right, not_and_not_right]
  rfl

theorem leftBySave_config :
    e.config.LeftBySave (e.save clock).config (e.save clock).store
      (NamesSaved (e.save clock).status .config) (e.RefusesConfig clock) := by
  rw [namesSaved_save_config_iff, save_eq]
  exact Session.leftBySave_flush fun hsaved =>
    Session.load_flush_of_ne (by decide) (Session.load_of_flush hsaved)

theorem leftBySave_keywords :
    e.keywords.LeftBySave (e.save clock).keywords (e.save clock).store
      (NamesSaved (e.save clock).status .keywords) (e.RefusesKeywords clock) := by
  rw [namesSaved_save_keywords_iff, save_eq]
  exact Session.leftBySave_flush Session.load_of_flush

/-- The status tells what there was to save exactly when the store refused
nothing.  It says that there was nothing exactly when there was nothing but what
the store refused; a document that the status names is stored, one that was
refused is kept for the next save, and any other was clean. -/
theorem tellsSave_save :
    (TellsSave e (e.save clock) ↔ ¬e.RefusesConfig clock ∧ ¬e.RefusesKeywords clock) ∧
    ((e.save clock).status = "Nothing to save".toList ↔
      (e.config.isDirty = true → e.RefusesConfig clock) ∧
        (e.keywords.isDirty = true → e.RefusesKeywords clock)) ∧
    e.config.LeftBySave (e.save clock).config (e.save clock).store
      (NamesSaved (e.save clock).status .config) (e.RefusesConfig clock) ∧
    e.keywords.LeftBySave (e.save clock).keywords (e.save clock).store
      (NamesSaved (e.save clock).status .keywords) (e.RefusesKeywords clock) := by
  have hconfig := e.leftBySave_config clock
  have hkeywords := e.leftBySave_keywords clock
  refine ⟨⟨fun htells => ?_, fun ⟨htaken, htaken'⟩ => ?_⟩,
    e.status_save_eq_nothing_iff clock, hconfig, hkeywords⟩
  · exact ⟨hconfig.clean_iff.mp htells.config, hkeywords.clean_iff.mp htells.keywords⟩
  · refine ⟨fun hnothing => ?_, hconfig.clean_iff.mpr htaken, hkeywords.clean_iff.mpr htaken'⟩
    obtain ⟨hrefused, hrefused'⟩ := (e.status_save_eq_nothing_iff clock).mp hnothing
    exact ⟨Bool.eq_false_iff.mpr (mt hrefused htaken),
      Bool.eq_false_iff.mpr (mt hrefused' htaken')⟩

end Save

/-- A configuration that is not saved, and a file where the directory of the
store should be. -/
def unsavedBesideFile : Editor :=
  let store : Store := ⟨"/s".toList, [], ⟨[([], .directory), ([['s']], .file [])]⟩⟩
  let e := empty store ⟨"/s".toList, Settings.usualDebounce, .unset⟩
  { e with config := (e.config.load ['a'] .drop 0).2 }

/-- The store refuses the configuration.  It still has its changes, and the
status names no document as saved. -/
theorem not_tellsSave_save_of_refused :
    let saved := unsavedBesideFile.save ⟨0, ⟨⟨2026, 1, 2⟩, 3, 4, 5, 0⟩⟩
    unsavedBesideFile.config.isDirty = true ∧
      saved.status = "Nothing to save".toList ∧ saved.config.isDirty = true ∧
      saved.store = unsavedBesideFile.store ∧ ¬TellsSave unsavedBesideFile saved := by
  intro saved
  have hdirty : unsavedBesideFile.config.isDirty = true := by decide +kernel
  have hstatus : saved.status = "Nothing to save".toList := by decide +kernel
  refine ⟨hdirty, hstatus, by decide +kernel, by decide +kernel, fun htells => ?_⟩
  rw [(htells.nothing hstatus).1] at hdirty
  cases hdirty

end Editor

end Marginalia
