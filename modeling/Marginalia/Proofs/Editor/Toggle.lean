import Marginalia.Proofs.Editor.Selections
import Marginalia.Proofs.Yaml.InPlace

/-!
# What turning a flag shows

The view finds the flag of a module in the value of the text, the patcher looks
for a line with its key.  Where both find it in one place, the view shows the
flag turned afterwards and every other flag as it was.  Where the patcher finds
no line, the view stays as it is.  The status names the turned flag either way.
-/

namespace Marginalia

/-- The module with another flag, if it has the key. -/
def ModuleSummary.withFlag (key : Text) (flag : Bool) (m : ModuleSummary) : ModuleSummary :=
  if m.key = key then { m with enabled := some flag } else m

theorem ConfigEdit.textAfter?_setField_of_miss {t module path : Text} {value : Yaml.Scalar}
    (hmiss : ∀ e, Yaml.Patch.setScalar t module path value ≠ .ok e) :
    (setField module path value).textAfter? t = some t := by
  cases hset : Yaml.Patch.setScalar t module path value with
  | error miss => simp only [textAfter?, hset]
  | ok e => exact absurd hset (hmiss e)

namespace ConfigView

/-- The text that a flag in place leaves has a value with that flag, and with
every other flag as it was. -/
theorem exists_enabledFlag_eq {t module : Text} {root : Yaml.Value}
    (f : Yaml.Patch.FieldInPlace t module "enabled".toList) (hroot : Yaml.Value.ofText t = .ok root)
    (flag : Bool) :
    ∃ e root', Yaml.Patch.setScalar t module "enabled".toList (.bool flag) = .ok e ∧
      Yaml.Value.ofText (e.apply t) = .ok root' ∧
      enabledFlag (some root') module = some flag ∧
      ∀ other, other ≠ module →
        enabledFlag (some root') other = enabledFlag (some root) other := by
  obtain ⟨e, old, vs, vs', hset, rfl, hdistinct, hdiffer, hroot'⟩ :=
    f.exists_differAt hroot (Yaml.Scalar.IsWord.bool flag)
  rw [Yaml.Value.distinct_congr hdiffer.map_fst_eq] at hdistinct
  have hlookup : (Yaml.Value.map vs').lookup module "enabled".toList = some (.bool flag) :=
    hdiffer.foldl_get?_eq hdistinct
  refine ⟨e, .map vs', hset, hroot', ?_, ?_⟩
  · rw [enabledFlag, Option.bind_some, hlookup]
    rfl
  · intro other hother
    rw [enabledFlag, enabledFlag, Option.bind_some, Option.bind_some, Yaml.Value.lookup,
      Yaml.Value.lookup, hdiffer.get?_eq_of_ne hother]

theorem exists_modules_ofText_eq {t module : Text} {root : Yaml.Value}
    (f : Yaml.Patch.FieldInPlace t module "enabled".toList) (hroot : Yaml.Value.ofText t = .ok root)
    (flag : Bool) :
    ∃ u, (ConfigEdit.setField module "enabled".toList (.bool flag)).textAfter? t = some u ∧
      (ofText u).modules = (ofText t).modules.map (ModuleSummary.withFlag module flag) := by
  obtain ⟨e, root', hset, hroot', hself, hothers⟩ := exists_enabledFlag_eq f hroot flag
  have hmodules : (Yaml.Outline.ofText (e.apply t)).modules = (Yaml.Outline.ofText t).modules :=
    Yaml.Outline.modules_congr (Yaml.Patch.map_shape_ofText_of_setScalar hset)
  refine ⟨e.apply t, by simp only [ConfigEdit.textAfter?, hset], ?_⟩
  rw [ofText, ofText, hroot, hroot', hmodules, List.map_map]
  apply List.map_congr_left
  rintro ⟨key, lines⟩ -
  by_cases hkey : key = module
  · subst hkey
    simp [ModuleSummary.withFlag, Except.toOption, hself]
  · simp [ModuleSummary.withFlag, Except.toOption, hkey, hothers key hkey]

/-- A view that shows a flag is the view of a text with a value. -/
theorem exists_value_of_enabled {t : Text} {m : ModuleSummary} {flag : Bool}
    (hm : m ∈ (ofText t).modules) (hflag : m.enabled = some flag) :
    ∃ root, Yaml.Value.ofText t = .ok root := by
  obtain ⟨⟨key, lines⟩, -, rfl⟩ := List.mem_map.mp hm
  cases hvalue : Yaml.Value.ofText t with
  | ok root => exact ⟨root, rfl⟩
  | error problem =>
      simp only [hvalue] at hflag
      cases hflag

end ConfigView

namespace Editor

variable {e : Editor} {m : ModuleSummary} {flag : Bool}

theorem mem_modules_of_selectedModule (h : e.selectedModule = some m) :
    m ∈ e.config.shown.modules := by
  obtain ⟨i, -, hi⟩ := Option.bind_eq_some_iff.mp h
  exact List.mem_of_getElem? hi

/-- Turning the flag of the selected module names the turned flag in the status.
When the flag is in place, the view then shows that module with the turned flag
and the other modules as they were.  When the patcher does not find it, the view
shows what it showed before. -/
theorem selectedModule_toggleEnabled (hcurrent : e.config.Current)
    (hselected : e.selectedModule = some m) (hflag : m.enabled = some flag) (now : Nat) :
    let turned := e.toggleEnabled now
    turned.status = m.key ++ ".enabled = ".toList ++ flagText !flag ∧
      (Nonempty (Yaml.Patch.FieldInPlace e.config.text m.key "enabled".toList) →
        turned.selectedModule = some { m with enabled := some !flag } ∧
        turned.config.shown.modules =
          e.config.shown.modules.map (ModuleSummary.withFlag m.key !flag)) ∧
      ((∀ edit, Yaml.Patch.setScalar e.config.text m.key "enabled".toList (.bool !flag) ≠
          .ok edit) →
        turned.selectedModule = some m ∧
        turned.config.shown.modules = e.config.shown.modules) := by
  have hmem := mem_modules_of_selectedModule hselected
  have hshown : e.config.shown = ConfigView.ofText e.config.text := hcurrent.shown_eq
  have hselects : ∀ f : ModuleSummary → ModuleSummary,
      (e.toggleEnabled now).config.shown.modules = e.config.shown.modules.map f →
      (e.toggleEnabled now).selectedModule = some (f m) := by
    intro f hmodules
    obtain ⟨i, hi, hmodule⟩ := Option.bind_eq_some_iff.mp hselected
    rw [selectedModule, hmodules, toggleEnabled_eq hselected hflag, hi]
    simp [hmodule]
  intro turned
  refine ⟨?_, ?_, ?_⟩
  · simp only [turned, toggleEnabled_eq hselected hflag]
  · rintro ⟨f⟩
    rw [hshown] at hmem
    obtain ⟨root, hroot⟩ := ConfigView.exists_value_of_enabled hmem hflag
    obtain ⟨u, hafter, hmodules⟩ := ConfigView.exists_modules_ofText_eq f hroot (!flag)
    have hturned : turned.config.shown.modules =
        e.config.shown.modules.map (ModuleSummary.withFlag m.key !flag) := by
      simp only [turned, toggleEnabled_eq hselected hflag]
      rw [hcurrent.shown_edit_eq hafter, hmodules, hshown]
    refine ⟨?_, hturned⟩
    rw [hselects _ hturned, ModuleSummary.withFlag, if_pos rfl]
  · intro hmiss
    have hafter := ConfigEdit.textAfter?_setField_of_miss hmiss
    have hturned : turned.config.shown.modules = e.config.shown.modules := by
      simp only [turned, toggleEnabled_eq hselected hflag]
      rw [hcurrent.shown_edit_eq hafter, hshown]
    exact ⟨hselects id (by rw [List.map_id]; exact hturned), hturned⟩

def startedOn (config : Text) : Editor :=
  let store : Store := ⟨"/s".toList, [], ⟨[([], .directory), ([['s']], .directory),
    ([['s'], DocumentKind.config.fileName], .file config)]⟩⟩
  ((empty store ⟨"/s".toList, Settings.usualDebounce, .unset⟩).reload 0).2

def twoFlags : Text :=
  "a:\n  enabled: true # on\nb:\n  enabled: true\n".toList

def twoFlagsState : Yaml.Scan where
  cursor := ⟨[], 1, 10⟩
  indents := [2, 0]
  candidate := none
  outer := []
  keyAllowed := false
  tokens := [.value, .scalar true "enabled".toList, .key, .blockMappingStart, .value,
    .scalar true ['a'], .key, .blockMappingStart]

theorem leadsTo_twoFlagsState :
    Yaml.Node.LeadsTo [['a'], "enabled".toList] twoFlagsState.tokens.reverse := by
  have hname : ∀ name ∈ [['a'], "enabled".toList],
      Yaml.Value.ofScalar false none true name = .ok (.str name) := by
    intro name hname
    rw [Yaml.Value.ofScalar_bare, Yaml.Value.ofPlain_eq_str_iff]
    simp only [List.mem_cons, List.not_mem_nil, or_false] at hname
    rcases hname with rfl | rfl
    · exact ⟨rfl, by decide, by decide, by decide, rfl, Or.inr (by decide)⟩
    · exact ⟨rfl, by decide, by decide, by decide, rfl, Or.inr (by decide)⟩
  refine ⟨twoFlagsState.tokens.reverse.tail, Or.inl rfl, ?_⟩
  exact Yaml.Node.Leads.inside (hname _ (by simp)) rfl
    (Yaml.Node.Leads.here (hname _ (by simp)) rfl)

theorem nonempty_fieldInPlace_twoFlags :
    Nonempty (Yaml.Patch.FieldInPlace twoFlags ['a'] "enabled".toList) :=
  ⟨{
    index := 1
    line := ⟨⟨1, 3, "  enabled: true # on".toList, .lf⟩, 2, .key "enabled".toList 9⟩
    key := ⟨"  enabled:".toList, [' '], "true".toList, " # on".toList⟩
    state := twoFlagsState
    indent := 2
    value := [.scalar true "true".toList]
    located := ⟨⟨0, 2⟩, by decide +kernel⟩
    keyed := by decide +kernel
    through := by decide +kernel
    opens := by decide +kernel
    awaits := ⟨rfl, rfl, rfl, rfl, rfl, by decide⟩
    leads := leadsTo_twoFlagsState
    gap := by simp [Yaml.Source.isBlank]
    comment := by
      refine Or.inr ⟨[' '], [' ', 'o', 'n'], rfl, by simp, by simp [Yaml.Source.isBlank], ?_⟩
      simp [Yaml.Source.endsLine, Yaml.Source.isBreak]
    taken := by
      refine @Yaml.Scan.Takes.scalar _ _ _ true _ ⟨"# on\nb:\n  enabled: true\n".toList, 1, 16⟩
        false ?_ (Or.inl ?_)
      · decide +kernel
      · decide +kernel
    shallow := by decide +kernel
    absent := by simp }⟩

/-- The flag of the first of two modules is turned, and only that one. -/
theorem selectedModule_toggleEnabled_twoFlags :
    ((startedOn twoFlags).toggleEnabled 0).status = "a.enabled = false".toList ∧
      ((startedOn twoFlags).toggleEnabled 0).selectedModule =
        some ⟨['a'], ⟨0, 2⟩, some false⟩ ∧
      ((startedOn twoFlags).toggleEnabled 0).config.shown.modules =
        [⟨['a'], ⟨0, 2⟩, some false⟩, ⟨['b'], ⟨2, 4⟩, some true⟩] := by
  have hcurrent : (startedOn twoFlags).config.Current :=
    (Session.current_start _ _).load _ _ _
  have hselected : (startedOn twoFlags).selectedModule = some ⟨['a'], ⟨0, 2⟩, some true⟩ := by
    decide +kernel
  have hmodules : (startedOn twoFlags).config.shown.modules =
      [⟨['a'], ⟨0, 2⟩, some true⟩, ⟨['b'], ⟨2, 4⟩, some true⟩] := by
    decide +kernel
  obtain ⟨hstatus, hplace, -⟩ := selectedModule_toggleEnabled hcurrent hselected rfl 0
  obtain ⟨hturned, hothers⟩ := hplace nonempty_fieldInPlace_twoFlags
  rw [hmodules] at hothers
  exact ⟨hstatus, hturned, hothers⟩

/-- The flag of a module that is written between braces is shown, but the
patcher does not find it: the status names the turned flag, and the view shows
it as it was. -/
theorem selectedModule_toggleEnabled_braces :
    let e := startedOn "m: \x7benabled: true\x7d\n".toList
    e.selectedModule = some ⟨['m'], ⟨0, 1⟩, some true⟩ ∧
      (e.toggleEnabled 0).status = "m.enabled = false".toList ∧
      (e.toggleEnabled 0).selectedModule = some ⟨['m'], ⟨0, 1⟩, some true⟩ ∧
      (e.toggleEnabled 0).config.isDirty = false := by
  decide +kernel

end Editor

end Marginalia
