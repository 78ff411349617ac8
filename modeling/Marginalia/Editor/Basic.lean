import Marginalia.Session.Documents
import Marginalia.Settings.Basic
import Marginalia.Version.Manifest

/-!
# The editor

The editor shows one list on each of two tabs, the modules of the configuration
and the groups of the keyword list, with a selected item on either, and tells in
a status what the last command did.  Every command is a function from editor to
editor; the clocks and what a fetch gives are passed in.
-/

namespace Marginalia

open Keywords (KeywordList KeywordEdit GroupKind)

/-- The two lists of the editor. -/
inductive Tab where
  | config
  | keywords
  deriving DecidableEq, Repr

/-- What a fetch of a URL gives. -/
abbrev Fetch := Text → Except FetchError Text

structure Editor where
  store : Store
  remote : Remote
  config : Session ConfigView
  keywords : Session KeywordList
  tab : Tab
  configSelected : Option Nat
  keywordsSelected : Option Nat
  status : Text

/-- The active document: its text, the lines of the selected item, and a
title. -/
structure RawView where
  text : Text
  lines : Yaml.LineRange
  title : Text
  deriving DecidableEq, Repr

namespace Editor

/-! ### Selections -/

/-- A selection kept within a list: none in an empty list, the last item when it
was behind the end, the first item when there was none. -/
def clamp (length : Nat) (selected : Option Nat) : Option Nat :=
  if length = 0 then none
  else
    match selected with
    | none => some 0
    | some i => some (min i (length - 1))

def moduleCount (e : Editor) : Nat :=
  e.config.shown.modules.length

def groupCount (e : Editor) : Nat :=
  e.keywords.shown.groups.length

/-- The editor with both selections kept within their lists. -/
def clampSelections (e : Editor) : Editor :=
  { e with
    configSelected := clamp e.moduleCount e.configSelected
    keywordsSelected := clamp e.groupCount e.keywordsSelected }

/-- The number of items on the active tab. -/
def count (e : Editor) : Nat :=
  match e.tab with
  | .config => e.moduleCount
  | .keywords => e.groupCount

/-- The selection on the active tab. -/
def selected (e : Editor) : Option Nat :=
  match e.tab with
  | .config => e.configSelected
  | .keywords => e.keywordsSelected

def select (e : Editor) (i : Nat) : Editor :=
  match e.tab with
  | .config => { e with configSelected := some i }
  | .keywords => { e with keywordsSelected := some i }

/-- The item below is selected, the first one after the last. -/
def next (e : Editor) : Editor :=
  if e.count = 0 then e
  else
    match e.selected with
    | none => e.select 0
    | some i => e.select ((i + 1) % e.count)

/-- The item above is selected, the last one before the first. -/
def previous (e : Editor) : Editor :=
  if e.count = 0 then e
  else
    match e.selected with
    | some (i + 1) => e.select i
    | _ => e.select (e.count - 1)

def switchTab (e : Editor) : Editor :=
  { e with tab := match e.tab with
      | .config => .keywords
      | .keywords => .config }

/-! ### Loading -/

/-- The status after a load, given the problem of the configuration and the
names of the files that were there. -/
def loadedStatus (location : Text) (problem : Option Yaml.Error) (loaded : List Text) : Text :=
  match problem with
  | some e => "config.yaml does not parse: ".toList ++ e.message
  | none =>
    if loaded.isEmpty then "Nothing stored in ".toList ++ location
    else "Loaded ".toList ++ Text.joinWith [',', ' '] loaded

/-- What the store holds, loaded.  When the second document cannot be read, the
first one was loaded all the same. -/
def reload (e : Editor) (now : Nat) : Except StoreError Unit × Editor :=
  match e.store.load .config with
  | .error fault => (.error fault, e)
  | .ok configText =>
    let (problem, config) : Option Yaml.Error × Session ConfigView :=
      match configText with
      | none => (none, e.config)
      | some t =>
        let (report, config) := e.config.load t .storage now
        (report.problem, config)
    let e := { e with config }
    match e.store.load .keywords with
    | .error fault => (.error fault, e)
    | .ok keywordsText =>
      let keywords :=
        match keywordsText with
        | none => e.keywords
        | some t => (e.keywords.load t .storage now).2
      let loaded :=
        (configText.toList.map fun _ => DocumentKind.config.fileName) ++
          keywordsText.toList.map fun _ => DocumentKind.keywords.fileName
      let status := loadedStatus e.store.location problem loaded
      (.ok (), { e with keywords, status }.clampSelections)

def empty (store : Store) (settings : Settings) : Editor :=
  { store
    remote := settings.remote
    config := .start settings.saveDebounce []
    keywords := .start settings.saveDebounce []
    tab := .config
    configSelected := none
    keywordsSelected := none
    status := [] }

/-- An editor of what a store holds. -/
def start (store : Store) (settings : Settings) (now : Nat) : Except StoreError Editor :=
  match (empty store settings).reload now with
  | (.ok (), e) => .ok e
  | (.error fault, _) => .error fault

/-! ### Changes -/

def flagText (b : Bool) : Text :=
  if b then "true".toList else "false".toList

/-- The flag of the selected module, turned. -/
def toggleEnabled (e : Editor) (now : Nat) : Editor :=
  match e.configSelected.bind (e.config.shown.modules[·]?) with
  | none => e
  | some m =>
    match m.enabled with
    | none => { e with status := m.key ++ " has no enabled flag".toList }
    | some flag =>
      let change := ConfigEdit.setField m.key "enabled".toList (.bool !flag)
      let (_, config) := e.config.edit change now
      { e with config, status := m.key ++ ".enabled = ".toList ++ flagText !flag }

def removeGroup (e : Editor) (now : Nat) : Editor :=
  match e.keywordsSelected with
  | none => e
  | some i =>
    let (patch, keywords) := e.keywords.edit (KeywordEdit.removeGroup i) now
    let status :=
      if patch.isNoop then e.status else "Removed group ".toList ++ Text.ofNat (i + 1)
    { e with keywords, status }.clampSelections

def lastAlias? : GroupKind → Option Nat
  | .single _ => some 0
  | .cluster items => some (items.length - 1)
  | _ => none

def removeLastAlias (e : Editor) (now : Nat) : Editor :=
  match e.keywordsSelected with
  | none => e
  | some i =>
    match (e.keywords.shown.groups[i]?).bind fun g => lastAlias? g.kind with
    | none => { e with status := "Selected group has no alias items".toList }
    | some item =>
      let (_, keywords) := e.keywords.edit (KeywordEdit.removeAlias i item) now
      let status :=
        "Removed alias item ".toList ++ Text.ofNat (item + 1) ++ " of group ".toList ++
          Text.ofNat (i + 1)
      { e with keywords, status }.clampSelections

/-! ### Saving -/

/-- The status after a save, given which documents were written. -/
def savedStatus : (config keywords : Bool) → Text
  | false, false => "Nothing to save".toList
  | true, false => "Saved config.yaml".toList
  | false, true => "Saved frequency_words.txt".toList
  | true, true => "Saved both buffers".toList

/-- The unsaved changes of both documents, written. -/
def save (e : Editor) (clock : Clock) : Editor :=
  let (configSaved, config, store) := e.config.flush e.store clock
  let (keywordsSaved, keywords, store) := e.keywords.flush store clock
  { e with config, keywords, store, status := savedStatus configSaved keywordsSaved }

/-- The unsaved changes that waited long enough, written. -/
def tick (e : Editor) (clock : Clock) : Editor :=
  let (_, config, store) := e.config.flushIfDue clock.instant e.store clock
  let (_, keywords, store) := e.keywords.flushIfDue clock.instant store clock
  { e with config, keywords, store }

/-! ### Fetching -/

def configFetched : Except FetchError LoadReport → Text
  | .ok report =>
    if report.isValid then "config template loaded".toList
    else "config template does not parse".toList
  | .error fault => fault.message

def keywordsFetched : Except FetchError LoadReport → Text
  | .ok _ => "keyword template loaded".toList
  | .error fault => fault.message

/-- The templates for which there is a URL, fetched and loaded. -/
def fetchTemplates (e : Editor) (fetch : Fetch) (now : Nat) : Editor :=
  let (first, config) : Option Text × Session ConfigView :=
    match e.remote.configTemplate with
    | none => (none, e.config)
    | some url =>
      let (outcome, config) := e.config.loadFetched (fetch url) now
      (some (configFetched outcome), config)
  let (second, keywords) : Option Text × Session KeywordList :=
    match e.remote.keywordsTemplate with
    | none => (none, e.keywords)
    | some url =>
      let (outcome, keywords) := e.keywords.loadFetched (fetch url) now
      (some (keywordsFetched outcome), keywords)
  let messages := first.toList ++ second.toList
  let status :=
    if messages.isEmpty then "No template URLs configured".toList
    else Text.joinWith [';', ' '] messages
  { e with config, keywords, status }.clampSelections

/-- A version in words; a dash when there is none. -/
def versionText (v : Option Version) : Text :=
  (v.map Version.toText).getD ['-']

def reportText (r : VersionReport) : Text :=
  r.file ++ [':', ' '] ++ r.status.message ++ [' ', '('] ++ versionText r.here ++
    [' ', '/', ' '] ++ versionText r.published ++ [')']

/-- Both documents, checked against the published versions. -/
def checkVersions (e : Editor) (fetch : Fetch) : Editor :=
  let status :=
    match e.remote.versionManifest with
    | none => "No version manifest URL configured".toList
    | some url =>
      match fetch url with
      | .error fault => fault.message
      | .ok t =>
        let manifest := Manifest.ofText t
        Text.joinWith [' ', '|', ' ']
          [reportText (manifest.check DocumentKind.config.fileName e.config.text),
            reportText (manifest.check DocumentKind.keywords.fileName e.keywords.text)]
  { e with status }

/-! ### The active document -/

def rawConfig (e : Editor) : RawView :=
  let shown := e.config.shown
  let name := DocumentKind.config.fileName
  { text := e.config.text
    lines :=
      ((e.configSelected.bind (shown.modules[·]?)).map ModuleSummary.lines).getD ⟨0, 0⟩
    title :=
      match shown.problem? with
      | some problem => name ++ " (invalid: ".toList ++ problem.message ++ [')']
      | none => name }

/-- The keyword list with the lines of the selected group. -/
def rawKeywords (e : Editor) : RawView :=
  let name := DocumentKind.keywords.fileName
  match e.keywordsSelected with
  | none => ⟨e.keywords.text, ⟨0, 0⟩, name⟩
  | some i =>
    { text := e.keywords.text
      lines :=
        ((e.keywords.shown.groups[i]?).map fun g =>
          Yaml.LineRange.mk g.start (g.start + g.lineCount)).getD ⟨0, 0⟩
      title :=
        match e.keywords.groupSpan? i with
        | some span =>
          name ++ " (bytes ".toList ++ Text.ofNat span.start ++ ['.', '.'] ++
            Text.ofNat span.stop ++ [')']
        | none => name }

def raw (e : Editor) : RawView :=
  match e.tab with
  | .config => e.rawConfig
  | .keywords => e.rawKeywords

end Editor

end Marginalia
