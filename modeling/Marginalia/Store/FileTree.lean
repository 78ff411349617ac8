import Marginalia.Text.Basic

/-!
# File trees

A file tree maps the paths of its entries to what stands there: a directory, or
a file, whose content may be no text.  A path is the list of names that lead to
an entry.  Names in a request are followed one after another, each from a
directory; a name of one point stays, and a name of two points goes up.

Reading, writing and the making of directories answer with the tree after the
request, also when the request failed: what was made before the fault stays.
-/

namespace Marginalia

/-- The names that lead to an entry. -/
abbrev Path := List Text

namespace Path

def step (here : Path) (name : Text) : Path :=
  if name = ['.'] then here else if name = ['.', '.'] then here.dropLast else here ++ [name]

/-- The names of a path in writing; slashes without a name between them count as
one. -/
def names (t : Text) : List Text :=
  (Text.splitAt '/' t).filter (!·.isEmpty)

/-- The names that a path in writing leads along, from the directory `base`
unless it starts with a slash. -/
def namesFrom (base : Path) (t : Text) : List Text :=
  if t.head? = some '/' then names t else base ++ names t

/-- Whether an entry can have a name: it has no null character and at most 255
bytes. -/
def isName (name : Text) : Bool :=
  !name.contains '\x00' && decide (Text.size name ≤ 255)

def dropPoints (ns : List Text) : List Text :=
  (ns.reverse.dropWhile (· == ['.'])).reverse

def toText (ns : List Text) : Text :=
  Text.joinWith ['/'] ns

end Path

/-- What stands at a path. -/
inductive Entry where
  | directory
  | file (t : Text)
  /-- A file whose bytes are no text. -/
  | binary
  deriving DecidableEq, Repr

/-- Why a request to the file tree failed. -/
inductive IoFault where
  | notFound
  | notDirectory
  | isDirectory
  | alreadyThere
  | badName
  | notText
  deriving DecidableEq, Repr

namespace IoFault

def message : IoFault → Text
  | notFound => "No such file or directory (os error 2)".toList
  | notDirectory => "Not a directory (os error 20)".toList
  | isDirectory => "Is a directory (os error 21)".toList
  | alreadyThere => "File exists (os error 17)".toList
  | badName => "File name too long (os error 36)".toList
  | notText => "stream did not contain valid UTF-8".toList

end IoFault

structure FileTree where
  entries : List (Path × Entry)
  deriving DecidableEq, Repr

namespace FileTree

/-- What stands at a path. -/
def get? (tree : FileTree) (p : Path) : Option Entry :=
  (tree.entries.find? fun e => e.1 = p).map (·.2)

def put (tree : FileTree) (p : Path) (e : Entry) : FileTree :=
  ⟨(p, e) :: tree.entries.filter fun other => other.1 ≠ p⟩

/-- The tree without a path and all that stands below it. -/
def remove (tree : FileTree) (p : Path) : FileTree :=
  ⟨tree.entries.filter fun e => !p.isPrefixOf e.1⟩

theorem get?_put_self (tree : FileTree) (p : Path) (e : Entry) :
    (tree.put p e).get? p = some e := by
  simp [get?, put]

theorem get?_put_of_ne
    (tree : FileTree) {p q : Path} (e : Entry)
    (h : q ≠ p) :
    (tree.put p e).get? q = tree.get? q := by
  have hpq : ¬p = q := fun hpq => h hpq.symm
  simp only [get?, put, List.find?_cons, hpq, decide_false, List.find?_filter]
  congr 2
  funext other
  by_cases ho : other.1 = q <;> simp [ho, h]

def follow? (tree : FileTree) (here : Path) : (names : List Text) → Option Path
  | [] => some here
  | name :: rest =>
    if tree.get? here = some .directory then tree.follow? (here.step name) rest else none

def find? (tree : FileTree) (names : List Text) : Option Entry :=
  (tree.follow? [] names).bind tree.get?

/-- The tree with a directory at a path, unless a file stands there. -/
def ensure? (tree : FileTree) (here : Path) : Option FileTree :=
  match tree.get? here with
  | some .directory => some tree
  | none => some (tree.put here .directory)
  | _ => none

/-- The tree with a directory at each path on the way that names lead along. -/
def makeWay (tree : FileTree) (here : Path) :
    (names : List Text) → Except IoFault Unit × FileTree
  | [] =>
    match tree.ensure? here with
    | some tree => (.ok (), tree)
    | none => (.error .alreadyThere, tree)
  | name :: rest =>
    match tree.ensure? here with
    | some tree =>
      if Path.isName name then tree.makeWay (here.step name) rest else (.error .badName, tree)
    | none => (.error .notDirectory, tree)

/-- The names of the directory that an entry stands in.  Points at the end name
the entry itself. -/
def parent (names : List Text) : List Text :=
  Path.dropPoints (Path.dropPoints names).dropLast

/-- The tree with a directory where names lead to, and with the directories on
the way.  A directory that is named by a point must be there already. -/
def makeDirectories (tree : FileTree) (names : List Text) : Except IoFault Unit × FileTree :=
  if tree.find? names = some .directory then (.ok (), tree)
  else if Path.dropPoints names = names then tree.makeWay [] names
  else
    match tree.makeWay [] (parent names) with
    | (.error fault, tree) => (.error fault, tree)
    | (.ok (), tree) =>
      if tree.find? names = some .directory then (.ok (), tree) else (.error .notFound, tree)

/-- The text of the file that names lead to. -/
def read (tree : FileTree) (names : List Text) : Except IoFault Text :=
  match tree.find? names with
  | none => .error .notFound
  | some .directory => .error .isDirectory
  | some .binary => .error .notText
  | some (.file t) => .ok t

/-- The tree with a file where names lead to; the directory it stands in must be
there. -/
def write (tree : FileTree) (names : List Text) (t : Text) : Except IoFault Unit × FileTree :=
  match tree.follow? [] names with
  | none => (.error .notDirectory, tree)
  | some p =>
    if !names.all Path.isName then (.error .badName, tree)
    else if tree.get? p = some .directory then (.error .isDirectory, tree)
    else (.ok (), tree.put p (.file t))

/-- The tree with a file where names lead to, and with the directories on the
way. -/
def writeDeep (tree : FileTree) (names : List Text) (t : Text) :
    Except IoFault Unit × FileTree :=
  match tree.makeDirectories (parent names) with
  | (.error fault, tree) => (.error fault, tree)
  | (.ok (), tree) => tree.write names t

end FileTree

end Marginalia
