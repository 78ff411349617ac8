import Marginalia.Editor.Basic
import Marginalia.Proofs.Session.Rendered

/-!
# Reloading in vain

A reload reads one document after the other.  When it fails at the first one
nothing has happened yet, but when it fails at the second one the first document
was loaded already: its session holds the stored text, and changes that were not
saved are gone.  What comes after both loads, the status and the selections, is
left as it was in either case.

`Editor.looksSame_reload_iff` tells exactly when a failed reload left everything
as it was.
-/

namespace Marginalia

namespace Session

variable {View Change : Type} [Document View Change]

/-- What can be seen of the document of a session: its text and version, whether
it has changes that were not saved, and whether a save waits for them. -/
structure LooksSame (s s' : Session View) : Prop where
  text : s'.text = s.text
  version : s'.buffer.version = s.buffer.version
  isDirty : s'.isDirty = s.isDirty
  savePending : s'.savePending = s.savePending

theorem LooksSame.refl (s : Session View) : s.LooksSame s :=
  ⟨rfl, rfl, rfl, rfl⟩

theorem version_load (s : Session View) (t : Text) (source : LoadSource) (now : Nat) :
    (s.load t source now).2.buffer.version = s.buffer.version + 1 := by
  cases source <;> rfl

/-- A text from the store counts as saved. -/
theorem isDirty_load_storage (s : Session View) (t : Text) (now : Nat) :
    (s.load t .storage now).2.isDirty = false :=
  Buffer.isDirty_markSaved _

theorem not_looksSame_load (s : Session View) (t : Text) (source : LoadSource) (now : Nat) :
    ¬s.LooksSame (s.load t source now).2 := by
  intro h
  have hversion := h.version
  rw [version_load] at hversion
  exact Nat.succ_ne_self _ hversion

end Session

namespace Editor

/-- What can be seen of an editor: both documents, both selections and the
status. -/
structure LooksSame (e e' : Editor) : Prop where
  config : e.config.LooksSame e'.config
  keywords : e.keywords.LooksSame e'.keywords
  configSelected : e'.configSelected = e.configSelected
  keywordsSelected : e'.keywordsSelected = e.keywordsSelected
  status : e'.status = e.status

theorem LooksSame.refl (e : Editor) : e.LooksSame e :=
  ⟨.refl _, .refl _, rfl, rfl, rfl⟩

variable {e : Editor} {now : Nat} {fault : StoreError}

/-- The configuration session after a load of what the store has of it. -/
def configAfter (e : Editor) (now : Nat) (found : Option Text) : Session ConfigView :=
  match found with
  | none => e.config
  | some t => (e.config.load t .storage now).2

theorem reload_of_config_error (h : e.store.load .config = .error fault) :
    e.reload now = (.error fault, e) := by
  rw [reload, h]

theorem reload_of_keywords_error {found : Option Text} (hconfig : e.store.load .config = .ok found)
    (hkeywords : e.store.load .keywords = .error fault) :
    e.reload now = (.error fault, { e with config := e.configAfter now found }) := by
  cases found <;> simp only [reload, hconfig, hkeywords, configAfter]

theorem reload_of_both_ok {found keywordsFound : Option Text}
    (hconfig : e.store.load .config = .ok found)
    (hkeywords : e.store.load .keywords = .ok keywordsFound) : (e.reload now).1 = .ok () := by
  cases found <;> simp only [reload, hconfig, hkeywords]

/-- A failed reload failed at the first document and changed nothing, or it
failed at the second one and has loaded what the store had of the first one. -/
theorem reload_cases_of_error (h : (e.reload now).1 = .error fault) :
    e.store.load .config = .error fault ∧ (e.reload now).2 = e ∨
      ∃ found, e.store.load .config = .ok found ∧ e.store.load .keywords = .error fault ∧
        (e.reload now).2 = { e with config := e.configAfter now found } := by
  cases hconfig : e.store.load .config with
  | error other =>
      have hreload := @reload_of_config_error e now other hconfig
      rw [hreload] at h
      cases h
      exact Or.inl ⟨rfl, congrArg Prod.snd hreload⟩
  | ok found =>
      cases hkeywords : e.store.load .keywords with
      | error other =>
          have hreload := @reload_of_keywords_error e now other found hconfig hkeywords
          rw [hreload] at h
          cases h
          exact Or.inr ⟨found, rfl, rfl, congrArg Prod.snd hreload⟩
      | ok keywordsFound =>
          rw [reload_of_both_ok hconfig hkeywords] at h
          cases h

/-- A failed reload that found a stored configuration has replaced the text by
it; changes that were not saved are gone, and nothing is left to be saved. -/
theorem config_reload_of_error {t : Text} (h : (e.reload now).1 = .error fault)
    (hstored : e.store.load .config = .ok (some t)) :
    (e.reload now).2.config.text = t ∧ (e.reload now).2.config.isDirty = false := by
  rcases reload_cases_of_error h with ⟨hconfig, -⟩ | ⟨found, hconfig, -, hreload⟩
  · rw [hstored] at hconfig
    cases hconfig
  · rw [hstored] at hconfig
    cases hconfig
    rw [hreload]
    exact ⟨Session.text_load .., Session.isDirty_load_storage ..⟩

/-- A failed reload leaves everything that can be seen as it was exactly when
there was no configuration to load before it failed. -/
theorem looksSame_reload_iff (h : (e.reload now).1 = .error fault) :
    e.LooksSame (e.reload now).2 ↔ ∀ t, e.store.load .config ≠ .ok (some t) := by
  rcases reload_cases_of_error h with ⟨hconfig, hreload⟩ | ⟨found, hconfig, -, hreload⟩
  · simp [hreload, hconfig, LooksSame.refl]
  · rw [hreload, hconfig]
    cases found with
    | none => simp [configAfter, LooksSame.refl]
    | some t =>
        have hloaded : ¬e.LooksSame { e with config := e.configAfter now (some t) } :=
          fun hsame => Session.not_looksSame_load _ _ _ _ hsame.config
        simp [hloaded]

/-- The configuration "b" is not saved while "a" is stored, and a directory
stands where the keyword list is looked for. -/
def unsavedBesideDirectory : Editor :=
  let store : Store := ⟨"/s".toList, [], ⟨[([], .directory), ([['s']], .directory),
    ([['s'], DocumentKind.config.fileName], .file ['a']),
    ([['s'], DocumentKind.keywords.fileName], .directory)]⟩⟩
  let e := empty store ⟨"/s".toList, Settings.usualDebounce, .unset⟩
  { e with config := (e.config.load ['b'] .drop 0).2 }

/-- A failed reload without a configuration to load, and one that loads it in
vain. -/
theorem looksSame_reload_iff_directory :
    (∃ e : Editor, (e.reload 0).1 = .error (.io .isDirectory) ∧
      (e.LooksSame (e.reload 0).2 ↔ ∀ t, e.store.load .config ≠ .ok (some t)) ∧
      e.store.load .config = .ok none) ∧
    (unsavedBesideDirectory.reload 0).1 = .error (.io .isDirectory) ∧
    (unsavedBesideDirectory.LooksSame (unsavedBesideDirectory.reload 0).2 ↔
      ∀ t, unsavedBesideDirectory.store.load .config ≠ .ok (some t)) := by
  let store : Store := ⟨"/s".toList, [], ⟨[([], .directory), ([['s']], .directory),
    ([['s'], DocumentKind.keywords.fileName], .directory)]⟩⟩
  let e : Editor := { unsavedBesideDirectory with store }
  have hreload : (e.reload 0).1 = .error (.io .isDirectory) := by decide +kernel
  have hreload' : (unsavedBesideDirectory.reload 0).1 = .error (.io .isDirectory) := by
    decide +kernel
  exact ⟨⟨e, hreload, looksSame_reload_iff hreload, by decide +kernel⟩, hreload',
    looksSame_reload_iff hreload'⟩

/-- A failed reload loses a change of the configuration that was not saved, and
the stored text in its place counts as saved. -/
theorem not_looksSame_reload_of_unsaved :
    (unsavedBesideDirectory.reload 0).1 = .error (.io .isDirectory) ∧
    unsavedBesideDirectory.config.text = ['b'] ∧
    unsavedBesideDirectory.config.isDirty = true ∧
    (unsavedBesideDirectory.reload 0).2.config.text = ['a'] ∧
    (unsavedBesideDirectory.reload 0).2.config.isDirty = false ∧
    ¬unsavedBesideDirectory.LooksSame (unsavedBesideDirectory.reload 0).2 := by
  have hstored : unsavedBesideDirectory.store.load .config = .ok (some ['a']) := by decide +kernel
  have hreload : (unsavedBesideDirectory.reload 0).1 = .error (.io .isDirectory) := by
    decide +kernel
  obtain ⟨htext, hclean⟩ := config_reload_of_error hreload hstored
  refine ⟨hreload, by decide +kernel, by decide +kernel, htext, hclean, fun hsame => ?_⟩
  have hsameText := hsame.config.text
  rw [htext] at hsameText
  revert hsameText
  decide +kernel

end Editor

end Marginalia
