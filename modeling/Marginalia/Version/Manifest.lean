import Marginalia.Text.Line
import Marginalia.Version.Basic

/-!
# Manifests

A manifest names the published version of each file, one to a line.  Checking
documents against it tells for each of them whether an update is there.
-/

namespace Marginalia

/-- The published version of each file; no name stands twice. -/
structure Manifest where
  entries : List (Text × Version)
  deriving DecidableEq, Repr

namespace Manifest

/-- The version of a name, given or changed. -/
def put (name : Text) (v : Version) : List (Text × Version) → List (Text × Version)
  | [] => [(name, v)]
  | (n, w) :: rest => if n = name then (name, v) :: rest else (n, w) :: put name v rest

/-- The entry of a line.  Blank lines, comments and lines without an equals sign
have none. -/
def entry? (line : Text) : Option (Text × Version) :=
  let line := Text.trim line
  if line.head? = some '#' then none
  else
    (Text.splitFirst? '=' line).map fun (name, version) =>
      (Text.trim name, Version.ofText version)

/-- The manifest of a text; the last entry of a name counts. -/
def ofText (t : Text) : Manifest :=
  ⟨(t.lines.filterMap fun l => entry? l.content).foldl (fun entries e => put e.1 e.2 entries) []⟩

def get? (m : Manifest) (name : Text) : Option Version :=
  m.entries.lookup name

def size (m : Manifest) : Nat :=
  m.entries.length

end Manifest

/-- How a document stands to its published version. -/
inductive VersionStatus where
  | outdated
  | upToDate
  | ahead
  | noLocalVersion
  | noRemoteVersion
  deriving DecidableEq, Repr

namespace VersionStatus

def message : VersionStatus → Text
  | outdated => "update available".toList
  | upToDate => "up to date".toList
  | ahead => "newer than published".toList
  | noLocalVersion => "no version marker".toList
  | noRemoteVersion => "not in manifest".toList

/-- How one version stands to another. -/
def ofVersions (here published : Version) : VersionStatus :=
  match here.order published with
  | .lt => outdated
  | .eq => upToDate
  | .gt => ahead

/-- How a document stands when either version may be missing. -/
def of : (here published : Option Version) → VersionStatus
  | none, _ => noLocalVersion
  | some _, none => noRemoteVersion
  | some a, some b => ofVersions a b

end VersionStatus

structure VersionReport where
  file : Text
  here : Option Version
  published : Option Version
  status : VersionStatus
  deriving DecidableEq, Repr

namespace Manifest

def check (m : Manifest) (file t : Text) : VersionReport :=
  let here := Version.find? t
  let published := m.get? file
  ⟨file, here, published, .of here published⟩

end Manifest

end Marginalia
