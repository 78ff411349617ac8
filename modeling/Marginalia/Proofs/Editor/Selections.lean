import Marginalia.Proofs.Editor.Reload
import Marginalia.Proofs.Session.Saved
import Marginalia.Proofs.Session.Spliced
import Marginalia.Proofs.Yaml.Field

/-!
# Selections stay within their lists

On either tab an item is selected unless there is none.  The number of items is
that of the text: a save leaves the text alone, and turning a flag rewrites one
line, which leaves every module where it is.  All other commands that may change
a list end by keeping both selections within the lists.

`Editor.Reaches` is what an editor may become, whatever happens to the directory
between commands; `Editor.InRange` is what every command keeps.
-/

namespace Marginalia

/-- The key of a module and its lines. -/
def ModuleSummary.place (m : ModuleSummary) : Text × Yaml.LineRange :=
  (m.key, m.lines)

theorem ConfigView.map_place_modules_ofText (t : Text) :
    (ofText t).modules.map ModuleSummary.place = (Yaml.Outline.ofText t).modules := by
  rw [ofText, List.map_map]
  exact List.map_id' _

/-- Setting a field leaves every module where it is, also when the field is not
found. -/
theorem ConfigEdit.exists_textAfter?_setField (t module path : Text) (value : Yaml.Scalar) :
    ∃ u, (setField module path value).textAfter? t = some u ∧
      (Yaml.Outline.ofText u).modules = (Yaml.Outline.ofText t).modules := by
  cases hset : Yaml.Patch.setScalar t module path value with
  | error miss => exact ⟨t, by simp only [textAfter?, hset], rfl⟩
  | ok e =>
      have hshapes := Yaml.Patch.map_shape_ofText_of_setScalar hset
      exact ⟨e.apply t, by simp only [textAfter?, hset], Yaml.Outline.modules_congr hshapes⟩

namespace Session

variable {View Change : Type} [Document View Change]

theorem shown_flush (s : Session View) (store : Store) (clock : Clock) :
    (s.flush store clock).2.1.shown = s.shown := by
  obtain ⟨saved, d, hflush⟩ := s.exists_flush_eq store clock
  rw [hflush]
  rfl

theorem shown_flushIfDue (s : Session View) (now : Nat) (store : Store) (clock : Clock) :
    (s.flushIfDue now store clock).2.1.shown = s.shown := by
  unfold flushIfDue
  split
  · exact s.shown_flush store clock
  · rfl

theorem Current.shown_edit_eq {s : Session ConfigView} (h : s.Current) {change : ConfigEdit}
    {u : Text} (hafter : change.textAfter? s.text = some u) (now : Nat) :
    (s.edit change now).2.shown = ConfigView.ofText u := by
  rw [(h.edit change now).shown_eq, text_edit_eq_of_textAfter? s now hafter]
  rfl

/-- The modules that are shown stay where they are when a field is set. -/
theorem Current.map_place_modules_edit {s : Session ConfigView} (h : s.Current)
    (module path : Text) (value : Yaml.Scalar) (now : Nat) :
    (s.edit (ConfigEdit.setField module path value) now).2.shown.modules.map
        ModuleSummary.place =
      s.shown.modules.map ModuleSummary.place := by
  obtain ⟨u, hafter, hmodules⟩ := ConfigEdit.exists_textAfter?_setField s.text module path value
  calc (s.edit (ConfigEdit.setField module path value) now).2.shown.modules.map
        ModuleSummary.place
      = (Yaml.Outline.ofText u).modules := by
        rw [h.shown_edit_eq hafter]
        exact ConfigView.map_place_modules_ofText u
    _ = (Yaml.Outline.ofText s.text).modules := hmodules
    _ = s.shown.modules.map ModuleSummary.place := by
        rw [h.shown_eq]
        exact (ConfigView.map_place_modules_ofText s.text).symm

end Session

namespace Editor

/-! ## What an editor may become -/

/-- One command of the editor, with what the outside contributes to it. -/
inductive Action where
  | next
  | previous
  | switchTab
  | toggleEnabled (now : Nat)
  | removeGroup (now : Nat)
  | removeLastAlias (now : Nat)
  | save (clock : Clock)
  | tick (clock : Clock)
  | fetchTemplates (fetch : Fetch) (now : Nat)
  | checkVersions (fetch : Fetch)
  | reload (now : Nat)

def perform (e : Editor) : Action → Editor
  | .next => e.next
  | .previous => e.previous
  | .switchTab => e.switchTab
  | .toggleEnabled now => e.toggleEnabled now
  | .removeGroup now => e.removeGroup now
  | .removeLastAlias now => e.removeLastAlias now
  | .save clock => e.save clock
  | .tick clock => e.tick clock
  | .fetchTemplates fetch now => e.fetchTemplates fetch now
  | .checkVersions fetch => e.checkVersions fetch
  | .reload now => (e.reload now).2

/-- A command does not fail; only a reload can. -/
def Succeeds (e : Editor) : Action → Prop
  | .reload now => (e.reload now).1 = .ok ()
  | _ => True

/-- What an editor of a store may become by commands that do not fail, while
anything may happen to the files of the store. -/
inductive Reaches : Editor → Prop
  | start {store : Store} {settings : Settings} {now : Nat} {e : Editor}
      (h : start store settings now = .ok e) : Reaches e
  | perform {e : Editor} (h : Reaches e) (action : Action) (hok : e.Succeeds action) :
      Reaches (e.perform action)
  | disturb {e : Editor} (h : Reaches e) (files : FileTree) :
      Reaches { e with store := { e.store with files } }

def selectedModule (e : Editor) : Option ModuleSummary :=
  e.configSelected.bind (e.config.shown.modules[·]?)

theorem toggleEnabled_eq {e : Editor} {m : ModuleSummary} {flag : Bool}
    (hselected : e.selectedModule = some m) (hflag : m.enabled = some flag) (now : Nat) :
    e.toggleEnabled now =
      { e with
        config := (e.config.edit
          (ConfigEdit.setField m.key "enabled".toList (.bool !flag)) now).2
        status := m.key ++ ".enabled = ".toList ++ flagText !flag } := by
  rw [selectedModule] at hselected
  simp only [toggleEnabled, hselected, hflag]

/-- Turning a flag edits the field of the selected module, or only tells that
there is none. -/
theorem toggleEnabled_cases (e : Editor) (now : Nat) :
    (∃ status, e.toggleEnabled now = { e with status }) ∨
      ∃ m flag, e.selectedModule = some m ∧ m.enabled = some flag := by
  cases hselected : e.selectedModule with
  | none =>
      rw [selectedModule] at hselected
      exact Or.inl ⟨e.status, by simp only [toggleEnabled, hselected]⟩
  | some m =>
      cases hflag : m.enabled with
      | none =>
          rw [selectedModule] at hselected
          exact Or.inl ⟨_, by simp only [toggleEnabled, hselected, hflag]; rfl⟩
      | some flag => exact Or.inr ⟨m, flag, rfl, hflag⟩

/-- The keyword list is saved to the store that the configuration leaves. -/
theorem save_eq (e : Editor) (clock : Clock) :
    let config := e.config.flush e.store clock
    let keywords := e.keywords.flush config.2.2 clock
    e.save clock =
      { e with
        config := config.2.1
        keywords := keywords.2.1
        store := keywords.2.2
        status := savedStatus config.1 keywords.1 } := by
  simp only [save]

theorem tick_eq (e : Editor) (clock : Clock) :
    let config := e.config.flushIfDue clock.instant e.store clock
    let keywords := e.keywords.flushIfDue clock.instant config.2.2 clock
    e.tick clock =
      { e with config := config.2.1, keywords := keywords.2.1, store := keywords.2.2 } := by
  simp only [tick]

/-! ## Selections -/

/-- A selection in a list: no item when there is none, and otherwise one of
them. -/
structure Fits (length : Nat) (selected : Option Nat) : Prop where
  eq_none_iff : selected = none ↔ length = 0
  lt : ∀ i, selected = some i → i < length

theorem fits_some {length i : Nat} (hi : i < length) : Fits length (some i) :=
  ⟨by simp; omega, by simp [hi]⟩

theorem fits_clamp (length : Nat) (selected : Option Nat) :
    Fits length (clamp length selected) := by
  unfold clamp
  split
  · next hempty => exact ⟨by simp [hempty], by simp⟩
  · next hne =>
      have hpos : 0 < length := Nat.pos_of_ne_zero hne
      cases selected with
      | none => exact fits_some hpos
      | some i =>
          have hle := Nat.min_le_right i (length - 1)
          exact fits_some (by omega)

/-- Both forms show what their texts give, and both selections are within what
they show. -/
structure InRange (e : Editor) : Prop where
  config : e.config.Current
  keywords : e.keywords.Current
  modules : Fits e.moduleCount e.configSelected
  groups : Fits e.groupCount e.keywordsSelected

variable {e : Editor}

theorem inRange_clampSelections (hconfig : e.config.Current) (hkeywords : e.keywords.Current) :
    e.clampSelections.InRange :=
  ⟨hconfig, hkeywords, fits_clamp _ _, fits_clamp _ _⟩

section Select

variable (e : Editor) (i j : Nat)

@[simp] theorem count_select : (e.select i).count = e.count := by
  cases htab : e.tab <;> simp [select, count, moduleCount, groupCount, htab]

@[simp] theorem selected_select : (e.select i).selected = some i := by
  cases htab : e.tab <;> simp [select, selected, htab]

@[simp] theorem select_select : (e.select i).select j = e.select j := by
  cases htab : e.tab <;> simp [select, htab]

end Select

theorem select_of_selected {i : Nat} (h : e.selected = some i) : e.select i = e := by
  obtain ⟨store, remote, config, keywords, tab, configSelected, keywordsSelected, status⟩ := e
  cases tab with
  | config =>
      obtain rfl : configSelected = some i := h
      rfl
  | keywords =>
      obtain rfl : keywordsSelected = some i := h
      rfl

namespace InRange

theorem selected (h : e.InRange) : Fits e.count e.selected := by
  cases htab : e.tab with
  | config => simpa [count, Editor.selected, htab] using h.modules
  | keywords => simpa [count, Editor.selected, htab] using h.groups

theorem select (h : e.InRange) {i : Nat} (hi : i < e.count) : (e.select i).InRange := by
  cases htab : e.tab with
  | config =>
      simp only [count, htab] at hi
      simp only [Editor.select, htab]
      exact ⟨h.config, h.keywords, fits_some hi, h.groups⟩
  | keywords =>
      simp only [count, htab] at hi
      simp only [Editor.select, htab]
      exact ⟨h.config, h.keywords, h.modules, fits_some hi⟩

theorem exists_selected (h : e.InRange) (hcount : e.count ≠ 0) :
    ∃ i, e.selected = some i ∧ i < e.count := by
  cases hselected : e.selected with
  | none => exact absurd (h.selected.eq_none_iff.mp hselected) hcount
  | some i => exact ⟨i, rfl, h.selected.lt i hselected⟩

theorem next (h : e.InRange) : e.next.InRange := by
  unfold Editor.next
  split
  · exact h
  · next hcount =>
      obtain ⟨i, hselected, -⟩ := h.exists_selected hcount
      rw [hselected]
      exact h.select (Nat.mod_lt _ (Nat.pos_of_ne_zero hcount))

theorem previous (h : e.InRange) : e.previous.InRange := by
  unfold Editor.previous
  split
  · exact h
  · next hcount =>
      obtain ⟨i, hselected, hi⟩ := h.exists_selected hcount
      rw [hselected]
      cases i with
      | zero => exact h.select (by omega)
      | succ i => exact h.select (by omega)

/-- The item above the item below is the item itself, also where the list starts
again. -/
theorem previous_next (h : e.InRange) (hcount : e.count ≠ 0) : e.next.previous = e := by
  obtain ⟨i, hselected, hi⟩ := h.exists_selected hcount
  have hnext : e.next = e.select ((i + 1) % e.count) := by
    simp only [Editor.next, if_neg hcount, hselected]
  rw [hnext]
  simp only [Editor.previous, count_select, selected_select, if_neg hcount, select_select]
  by_cases hlast : i + 1 = e.count
  · rw [hlast, Nat.mod_self]
    exact select_of_selected (by rw [hselected]; congr; omega)
  · rw [Nat.mod_eq_of_lt (by omega)]
    exact select_of_selected hselected

/-! ## Commands -/

theorem toggleEnabled (h : e.InRange) (now : Nat) : (e.toggleEnabled now).InRange := by
  rcases e.toggleEnabled_cases now with ⟨status, htoggle⟩ | ⟨m, flag, hselected, hflag⟩
  · rw [htoggle]
    exact ⟨h.config, h.keywords, h.modules, h.groups⟩
  · have hplaces := h.config.map_place_modules_edit m.key "enabled".toList (.bool !flag) now
    have hlength := congrArg List.length hplaces
    rw [List.length_map, List.length_map] at hlength
    rw [toggleEnabled_eq hselected hflag]
    generalize ConfigEdit.setField m.key "enabled".toList (.bool !flag) = change at hlength ⊢
    refine ⟨h.config.edit change now, h.keywords, ?_, h.groups⟩
    rw [moduleCount, hlength]
    exact h.modules

theorem removeGroup (h : e.InRange) (now : Nat) : (e.removeGroup now).InRange := by
  unfold Editor.removeGroup
  split
  · exact h
  · exact inRange_clampSelections h.config (h.keywords.edit _ now)

theorem removeLastAlias (h : e.InRange) (now : Nat) : (e.removeLastAlias now).InRange := by
  unfold Editor.removeLastAlias
  split
  · exact h
  · split
    · exact ⟨h.config, h.keywords, h.modules, h.groups⟩
    · exact inRange_clampSelections h.config (h.keywords.edit _ now)

theorem save (h : e.InRange) (clock : Clock) : (e.save clock).InRange := by
  rw [save_eq]
  refine ⟨h.config.flush _ clock, h.keywords.flush _ clock, ?_, ?_⟩
  · rw [moduleCount, Session.shown_flush]
    exact h.modules
  · rw [groupCount, Session.shown_flush]
    exact h.groups

theorem tick (h : e.InRange) (clock : Clock) : (e.tick clock).InRange := by
  rw [tick_eq]
  refine ⟨Session.preserved_current.perform h.config (.flushIfDue _ _ clock),
    Session.preserved_current.perform h.keywords (.flushIfDue _ _ clock), ?_, ?_⟩
  · rw [moduleCount, Session.shown_flushIfDue]
    exact h.modules
  · rw [groupCount, Session.shown_flushIfDue]
    exact h.groups

theorem fetchTemplates (h : e.InRange) (fetch : Fetch) (now : Nat) :
    (e.fetchTemplates fetch now).InRange := by
  unfold Editor.fetchTemplates
  apply inRange_clampSelections
  · cases e.remote.configTemplate with
    | none => exact h.config
    | some url => exact Session.preserved_current.perform h.config (.fetch (fetch url) now)
  · cases e.remote.keywordsTemplate with
    | none => exact h.keywords
    | some url => exact Session.preserved_current.perform h.keywords (.fetch (fetch url) now)

end InRange

/-- A reload that does not fail loads what there is and keeps the selections
within it. -/
theorem inRange_reload (hconfig : e.config.Current) (hkeywords : e.keywords.Current) {now : Nat}
    (hok : (e.reload now).1 = .ok ()) : (e.reload now).2.InRange := by
  cases hstored : e.store.load .config with
  | error fault =>
      rw [reload_of_config_error hstored] at hok
      cases hok
  | ok found =>
      cases hstored' : e.store.load .keywords with
      | error fault =>
          rw [reload_of_keywords_error hstored hstored'] at hok
          cases hok
      | ok found' =>
          unfold reload
          simp only [hstored, hstored']
          apply inRange_clampSelections
          · cases found with
            | none => exact hconfig
            | some t => exact hconfig.load t .storage now
          · cases found' with
            | none => exact hkeywords
            | some t => exact hkeywords.load t .storage now

theorem start_eq_ok_iff {store : Store} {settings : Settings} {now : Nat} :
    start store settings now = .ok e ↔ (empty store settings).reload now = (.ok (), e) := by
  unfold start
  split
  · next e' hreload => simp [hreload]
  · next fault e' hreload => simp [hreload]

theorem inRange_start {store : Store} {settings : Settings} {now : Nat}
    (h : start store settings now = .ok e) : e.InRange := by
  have hreload := start_eq_ok_iff.mp h
  have hloaded := @inRange_reload (empty store settings) (Session.current_start _ _)
    (Session.current_start _ _) now
  rw [hreload] at hloaded
  exact hloaded rfl

theorem InRange.perform (h : e.InRange) (action : Action) (hok : e.Succeeds action) :
    (e.perform action).InRange := by
  cases action with
  | next => exact h.next
  | previous => exact h.previous
  | switchTab => exact ⟨h.config, h.keywords, h.modules, h.groups⟩
  | toggleEnabled now => exact h.toggleEnabled now
  | removeGroup now => exact h.removeGroup now
  | removeLastAlias now => exact h.removeLastAlias now
  | save clock => exact h.save clock
  | tick clock => exact h.tick clock
  | fetchTemplates fetch now => exact h.fetchTemplates fetch now
  | checkVersions fetch => exact ⟨h.config, h.keywords, h.modules, h.groups⟩
  | reload now => exact inRange_reload h.config h.keywords hok

theorem Reaches.inRange (h : Reaches e) : e.InRange := by
  induction h with
  | start h => exact inRange_start h
  | perform h action hok ih => exact ih.perform action hok
  | disturb h files ih => exact ⟨ih.config, ih.keywords, ih.modules, ih.groups⟩

/-- Whatever happened since the start, on either tab nothing is selected when
there is nothing to select, and otherwise one of the items is; and where there
are items, going up undoes going down. -/
theorem fits_of_reaches (h : Reaches e) :
    Fits e.config.shown.modules.length e.configSelected ∧
      Fits e.keywords.shown.groups.length e.keywordsSelected ∧
      (e.count ≠ 0 → e.next.previous = e) :=
  ⟨h.inRange.modules, h.inRange.groups, h.inRange.previous_next⟩

/-- A store of two modules with a flag, and three groups in one run. -/
def flaggedBesideRun : Store :=
  ⟨"/s".toList, [], ⟨[([], .directory), ([['s']], .directory),
    ([['s'], DocumentKind.config.fileName],
      .file "a:\n  enabled: true\nb:\n  enabled: true\n".toList),
    ([['s'], DocumentKind.keywords.fileName], .file "[WORD_GROUPS]\nA\nx => y\nB\n".toList)]⟩⟩

def beforeRemoval : Editor :=
  ((empty flaggedBesideRun ⟨"/s".toList, Settings.usualDebounce, .unset⟩).reload 0).2

/-- The editor once the last module was selected and its flag turned, and the
second of the groups was removed, so that the two others are read as one. -/
def afterRemoval : Editor :=
  ((((beforeRemoval.perform .next).perform (.toggleEnabled 0)).perform .switchTab).perform
    .next).perform (.removeGroup 0)

/-- The selection of the keyword list moves to the one group that is left of
three. -/
theorem fits_of_reaches_merged :
    Reaches afterRemoval ∧
      (afterRemoval.config.isDirty = true ∧ beforeRemoval.groupCount = 3 ∧
        afterRemoval.groupCount = 1 ∧ afterRemoval.configSelected = some 1 ∧
        afterRemoval.keywordsSelected = some 0) ∧
      Fits afterRemoval.config.shown.modules.length afterRemoval.configSelected ∧
      Fits afterRemoval.keywords.shown.groups.length afterRemoval.keywordsSelected ∧
      afterRemoval.next.previous = afterRemoval := by
  have hstart : Reaches beforeRemoval := by
    have hok : start flaggedBesideRun ⟨"/s".toList, Settings.usualDebounce, .unset⟩ 0 =
        .ok beforeRemoval :=
      start_eq_ok_iff.mpr (Prod.ext (by decide +kernel) rfl)
    exact .start hok
  have hreaches : Reaches afterRemoval :=
    ((((hstart.perform .next trivial).perform (.toggleEnabled 0) trivial).perform .switchTab
      trivial).perform .next trivial).perform (.removeGroup 0) trivial
  have hsome : afterRemoval.count ≠ 0 := by decide +kernel
  obtain ⟨hmodules, hgroups, hundo⟩ := fits_of_reaches hreaches
  exact ⟨hreaches, by decide +kernel, hmodules, hgroups, hundo hsome⟩

end Editor

end Marginalia
