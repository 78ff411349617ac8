import Std.Time
import Marginalia.CommandLine
import Marginalia.Editor.Command

/-!
# The program

The outer layer: it copies the files that matter from the disk into a file tree,
lets the editor work on the tree, and writes what changed back.  Keys are read
from standard input, a line of them at a time.
-/

namespace Marginalia.Program

def entryAt (p : Path) : IO (Option Entry) := do
  let place := (← IO.currentDir) / String.ofList ('/' :: Path.toText p)
  if ← place.isDir then return some .directory
  if !(← place.pathExists) then return none
  match String.fromUTF8? (← IO.FS.readBinFile place) with
  | some s => return some (.file s.toList)
  | none => return some .binary

/-- The tree with the entry of one path as it is on the disk. -/
def copy (files : FileTree) (p : Path) : IO FileTree := do
  match ← entryAt p with
  | some e => return files.put p e
  | none => return files.remove p

/-- The tree with the entries on the way that names lead along. -/
def copyWay (files : FileTree) (here : Path) : (names : List Text) → IO FileTree
  | [] => copy files here
  | name :: rest => do copyWay (← copy files here) (here.step name) rest

/-- The changes from one tree to another, written to the disk. -/
def commit (old new : FileTree) : IO Unit := do
  for (p, e) in new.entries.reverse do
    if old.get? p ≠ some e then
      let place := (← IO.currentDir) / String.ofList ('/' :: Path.toText p)
      match e with
      | .directory => IO.FS.createDirAll place
      | .file t => IO.FS.writeFile place (String.ofList t)
      | .binary => pure ()

/-- The variables of the process among some names. -/
def readVariables (names : List Text) : IO (List (Text × Text)) := do
  names.filterMapM fun name => do
    return (← IO.getEnv (String.ofList name)).map fun value => (name, value.toList)

/-- The names of variables that a text may mention. -/
def mentioned (t : Text) : List Text :=
  (t.splitBy fun a b => Expansion.isNamePart a == Expansion.isNamePart b).eraseDups

def now : IO Clock := do
  let instant ← IO.monoMsNow
  let t := (Std.Time.DateTime.ofTimestamp (← Std.Time.Timestamp.now) .UTC).date.get
  let date : Date := ⟨t.date.year, t.date.month.val.toNat, t.date.day.val.toNat⟩
  let moment : Moment :=
    ⟨date, t.time.hour.val.toNat, t.time.minute.val.toNat, t.time.second.val.toNat,
      t.time.nanosecond.val.toNat⟩
  return ⟨instant, moment⟩

/-- No text can be fetched by this program. -/
def fetch : Fetch :=
  fun url => .error (.transport url "no client".toList)

def copyStore (names : List Text) (files : FileTree) : IO FileTree := do
  let mut files := files
  for name in [DocumentKind.config.fileName, DocumentKind.keywords.fileName, Store.stateFile,
      Invocation.logName] do
    files ← copyWay files [] (names ++ [name])
  return files

/-- The editor after keys, and whether the program goes on. -/
def press (e : Editor) : List Char → IO (Bool × Editor)
  | [] => return (true, e)
  | key :: keys => do
    match Command.ofKey? e.tab key with
    | none => press e keys
    | some command =>
      let files ← copyStore e.store.root e.store.files
      let e := { e with store := { e.store with files } }.run fetch (← now) command
      commit files e.store.files
      if command = .quit then return (false, e) else press e keys

/-- The lines of keys until the input ends. -/
partial def loop (e : Editor) : IO Unit := do
  IO.println (String.ofList e.statusLine)
  let line ← (← IO.getStdin).getLine
  if line.isEmpty then return
  let e := e.tick (← now)
  let (goOn, e) ← press e (line.toList.filter (· != '\n'))
  if goOn then loop e

/-- The call of the program, and the files that it reads first. -/
def prepare (arguments : List String) : IO (Invocation × FileTree) := do
  let directory := Path.names (← IO.currentDir).toString.toList
  let home ← readVariables ["HOME".toList]
  let settingsNames := Path.namesFrom directory (Settings.filePath ⟨home, none⟩)
  let files ← copyWay ⟨[]⟩ [] settingsNames
  let written := ((files.read settingsNames).toOption).getD []
  let call : Invocation :=
    { program := "marginalia".toList
      arguments := arguments.map String.toList
      environment := ⟨home ++ (← readVariables (mentioned written)), none⟩
      directory }
  match call.settings files with
  | .error _ => return (call, files)
  | .ok settings =>
    return (call, ← copyStore (Path.namesFrom directory settings.storagePath) files)

end Marginalia.Program

def main (arguments : List String) : IO UInt32 := do
  let (call, files) ← Marginalia.Program.prepare arguments
  let (outcome, started) := call.start files (← Marginalia.Program.now).instant
  Marginalia.Program.commit files started
  match outcome with
  | .error e =>
    IO.eprint (String.ofList e.message)
    return UInt32.ofNat Marginalia.StartError.exitCode
  | .ok editor =>
    Marginalia.Program.loop editor
    return 0
