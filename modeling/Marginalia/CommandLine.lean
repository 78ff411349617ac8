import Marginalia.Editor.Basic

/-!
# Starting from the command line

The program takes at most one argument, the storage path; without it the
settings decide.  A start reads the settings, makes the storage directory, opens
the log in it and loads what is stored.  Each of these steps can fail, and the
first failure ends the start.
-/

namespace Marginalia

structure Invocation where
  program : Text
  arguments : List Text
  environment : Environment
  /-- The working directory. -/
  directory : Path
  deriving DecidableEq, Repr

inductive StartError where
  | settings (path : Text) (error : SettingsError)
  | usage (program : Text)
  | storage (location : Text) (fault : IoFault)
  | log (fault : IoFault)
  | store (error : StoreError)
  deriving DecidableEq, Repr

namespace StartError

def message : StartError → Text
  | settings path error =>
    "Error: Failed to load config file: ".toList ++ error.message ++ "\nFix or remove ".toList ++
      path ++ ['\n']
  | usage program => "Usage: ".toList ++ program ++ " [storage-path]\n".toList
  | storage location fault =>
    "Error: Storage path '".toList ++ location ++ "' is not usable: ".toList ++ fault.message ++
      ['\n']
  | log fault => "Error: ".toList ++ fault.message ++ ['\n']
  | store error => "Error: ".toList ++ error.message ++ ['\n']

def exitCode : Nat :=
  1

end StartError

namespace Invocation

def logName : Text :=
  "configsync.log".toList

/-- The settings of a start: those of the file or the usual ones, with the
storage path of the argument. -/
def settings (i : Invocation) (files : FileTree) : Except StartError Settings :=
  let path := Settings.filePath i.environment
  match Settings.load files i.directory i.environment path with
  | .error error => .error (.settings path error)
  | .ok loaded =>
    let settings := loaded.getD (.usual i.environment)
    match i.arguments with
    | [] => .ok settings
    | [storagePath] => .ok { settings with storagePath }
    | _ => .error (.usage i.program)

/-- The files with the log opened; a log that is there stays as it is. -/
def openLog (files : FileTree) (names : List Text) : Except IoFault Unit × FileTree :=
  match files.find? names with
  | some .directory => (.error .isDirectory, files)
  | some _ => (.ok (), files)
  | none => files.write names []

def start (i : Invocation) (files : FileTree) (now : Nat) :
    Except StartError Editor × FileTree :=
  match i.settings files with
  | .error error => (.error error, files)
  | .ok settings =>
    let location := settings.storagePath
    let names := Path.namesFrom i.directory location
    match files.makeDirectories names with
    | (.error fault, files) => (.error (.storage location fault), files)
    | (.ok (), files) =>
      match openLog files (names ++ [logName]) with
      | (.error fault, files) => (.error (.log fault), files)
      | (.ok (), files) =>
        match Editor.start ⟨location, i.directory, files⟩ settings now with
        | .error error => (.error (.store error), files)
        | .ok editor => (.ok editor, files)

end Invocation

end Marginalia
