import Marginalia.Settings.Expansion
import Marginalia.Store.FileTree
import Marginalia.Toml.Reader

/-!
# Settings

The settings say where the documents are stored, how long a save waits, and from
where texts are fetched.  They stand in a TOML file below the home directory;
without the file they have defaults.  The storage path is expanded when the
settings are read and written as it is.
-/

namespace Marginalia

/-- From where the templates and the manifest are fetched. -/
structure Remote where
  configTemplate : Option Text
  keywordsTemplate : Option Text
  versionManifest : Option Text
  deriving DecidableEq, Repr

structure Settings where
  storagePath : Text
  /-- The quiet period before a save, in milliseconds. -/
  saveDebounce : Nat
  remote : Remote
  deriving DecidableEq, Repr

inductive SettingsError where
  | unreadable (path : Text) (fault : IoFault)
  | unparsable (path : Text)
  deriving DecidableEq, Repr

namespace SettingsError

def message : SettingsError → Text
  | unreadable path fault =>
    "Failed to read config file at ".toList ++ path ++ ": ".toList ++ fault.message
  | unparsable path =>
    "Failed to parse config file at ".toList ++ path ++ ": not a settings document".toList

end SettingsError

namespace Remote

/-- Nothing is fetched. -/
def unset : Remote :=
  ⟨none, none, none⟩

def keys : List Text :=
  ["config_template_url", "keywords_template_url", "version_manifest_url"].map String.toList

def url? : Option Toml.Value → Option (Option Text)
  | none => some none
  | some (.str t) => some (some t)
  | some _ => none

/-- The entries of a table; an array gives them in the order of the keys. -/
def ofValue? (v : Toml.Value) : Option Remote := do
  let fields ← match v with
    | .table _ es => some (keys.map (Toml.Entries.get? es))
    | .array items => some [items[0]?, items[1]?, items[2]?]
    | _ => none
  match ← fields.mapM url? with
  | [config, keywords, manifest] => some ⟨config, keywords, manifest⟩
  | _ => none

def line (key : Text) : (url : Option Text) → Text
  | none => []
  | some url => key ++ [' ', '=', ' '] ++ Toml.Quoted.write url ++ ['\n']

end Remote

namespace Settings

/-- The quiet period when none is set. -/
def usualDebounce : Nat :=
  1000

/-- The settings of a process without a file. -/
def usual (env : Environment) : Settings :=
  ⟨Expansion.path env "~/.local/share/configsync".toList, usualDebounce, .unset⟩

/-- The quiet period among the entries: below `2 ^ 64`. -/
def debounce? (es : Toml.Entries) : Option Nat :=
  match es.get? "save_debounce_ms".toList with
  | none => some usualDebounce
  | some (.int i) => if 0 ≤ i ∧ i < Int.pow 2 64 then some i.toNat else none
  | some _ => none

def ofEntries? (es : Toml.Entries) : Option Settings := do
  let storagePath ← match es.get? "storage_path".toList with
    | some (.str t) => some t
    | _ => none
  let saveDebounce ← debounce? es
  let remote ← match es.get? "remote".toList with
    | none => some .unset
    | some v => Remote.ofValue? v
  return ⟨storagePath, saveDebounce, remote⟩

/-- The settings of a text, with the storage path expanded. -/
def ofText? (env : Environment) (t : Text) : Option Settings := do
  let s ← ofEntries? (← Toml.Entries.ofText? t)
  return { s with storagePath := Expansion.path env s.storagePath }

def toText (s : Settings) : Text :=
  "storage_path = ".toList ++ Toml.Quoted.write s.storagePath ++ ['\n'] ++
    "save_debounce_ms = ".toList ++ Text.ofNat s.saveDebounce ++ ['\n', '\n'] ++
    "[remote]\n".toList ++
    Remote.line "config_template_url".toList s.remote.configTemplate ++
    Remote.line "keywords_template_url".toList s.remote.keywordsTemplate ++
    Remote.line "version_manifest_url".toList s.remote.versionManifest

def filePath (env : Environment) : Text :=
  Expansion.tilde env "~/.config/configsync".toList ++ "/config.toml".toList

/-- The settings in a file, unless it is missing; a relative path starts from
`base`. -/
def load (files : FileTree) (base : Path) (env : Environment) (path : Text) :
    Except SettingsError (Option Settings) :=
  let names := Path.namesFrom base path
  match files.find? names with
  | none => .ok none
  | some _ =>
    match files.read names with
    | .error fault => .error (.unreadable path fault)
    | .ok t =>
      match ofText? env t with
      | some s => .ok (some s)
      | none => .error (.unparsable path)

def save (s : Settings) (files : FileTree) (base : Path) (path : Text) :
    Except IoFault Unit × FileTree :=
  files.writeDeep (Path.namesFrom base path) s.toText

end Settings

end Marginalia
