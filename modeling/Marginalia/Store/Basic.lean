import Marginalia.Store.FileTree
import Marginalia.Store.SavedState

/-!
# The store

The store keeps the two documents and the times of their saving as files of one
directory.  Saving a document writes its file first and the times after it, so a
save that fails may have written the document all the same.  A document that was
never saved is no fault.
-/

namespace Marginalia

inductive StoreError where
  /-- No entry stands where the names lead to. -/
  | notFound (names : List Text)
  | io (fault : IoFault)
  /-- The times of saving cannot be read. -/
  | badState
  deriving DecidableEq, Repr

namespace StoreError

def message : StoreError → Text
  | notFound names => "File not found: ".toList ++ Path.toText names
  | io fault => "IO error: ".toList ++ fault.message
  | badState => "Invalid state file: ".toList

end StoreError

/-- A directory of a file tree in which documents are kept. -/
structure Store where
  /-- The path of the directory as it was given. -/
  location : Text
  /-- The directory that the path starts from, unless it starts with a slash. -/
  base : Path
  files : FileTree
  deriving DecidableEq, Repr

namespace Store

/-- The names that lead to the directory. -/
def root (s : Store) : List Text :=
  Path.namesFrom s.base s.location

def read (s : Store) (names : List Text) : Except StoreError Text :=
  if (s.files.find? (s.root ++ names)).isNone then .error (.notFound names)
  else (s.files.read (s.root ++ names)).mapError .io

/-- The store with a file, and with the directories on the way. -/
def write (s : Store) (names : List Text) (t : Text) : Except StoreError Unit × Store :=
  let (outcome, files) := s.files.writeDeep (s.root ++ names) t
  (outcome.mapError .io, { s with files })

/-- What was read, unless there is nothing. -/
def orMissing (outcome : Except StoreError Text) : Except StoreError (Option Text) :=
  match outcome with
  | .ok t => .ok (some t)
  | .error (.notFound _) => .ok none
  | .error e => .error e

/-- The last saved text of a document; none when it was never saved. -/
def load (s : Store) (kind : DocumentKind) : Except StoreError (Option Text) :=
  orMissing (s.read [kind.fileName])

def stateFile : Text :=
  "state.toml".toList

def state (s : Store) : Except StoreError SavedState :=
  match orMissing (s.read [stateFile]) with
  | .error e => .error e
  | .ok none => .ok .empty
  | .ok (some t) =>
    match SavedState.ofText? t with
    | some state => .ok state
    | none => .error .badState

def save (s : Store) (kind : DocumentKind) (t : Text) (at_ : Moment) :
    Except StoreError Unit × Store :=
  match s.write [kind.fileName] t with
  | (.error e, s) => (.error e, s)
  | (.ok (), s) =>
    match s.state with
    | .error e => (.error e, s)
    | .ok state => s.write [stateFile] (state.set kind at_).toText

end Store

end Marginalia
