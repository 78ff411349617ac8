import Marginalia.Keywords.Assembly
import Marginalia.Keywords.Writer

/-!
# Editing a keyword list

The eight edits of a keyword list.  An edit is refused when an index is out of
range or when the new content would not be read back as the same group.  Edits
that add, drop or move groups number the runs anew.
-/

namespace Marginalia.Keywords

/-- Whether a line on its own has a given class. -/
def readsBack (line : Text) (expected : LineClass) : Bool :=
  !line.any (fun c => c == '\n' || c == '\r') && LineClass.ofContent line == expected

/-- Whether a keyword is read back from its line. -/
def isKeyword (keyword : Text) : Bool :=
  readsBack keyword (.keyword keyword)

/-- Whether a name is read back from its line. -/
def isGroupName (name : Text) : Bool :=
  readsBack ('[' :: name ++ [']']) (.name name)

namespace Alias

/-- Whether an alias is read back from its line. -/
def isWritable (a : Alias) : Bool :=
  readsBack a.line (.arrow a.pattern a.target)

end Alias

namespace GroupKind

/-- Whether a group is read back from its lines. -/
def isWritable : GroupKind → Bool
  | plain keywords => !keywords.isEmpty && keywords.all isKeyword
  | named name keywords => isGroupName name && keywords.all isKeyword
  | single item => item.isWritable
  | cluster items => decide (1 < items.length) && items.all Alias.isWritable

end GroupKind

namespace Group

/-- The groups with their runs numbered anew; `previous` is the run of the group
before them, of which `before` groups stand there.  A run of one group is
none. -/
def renumberFrom (previous : Option Nat) (before : Nat) : List Group → List Group
  | [] => []
  | g :: gs =>
    match g.related with
    | none => g :: renumberFrom none 0 gs
    | some r =>
      let before := if previous = some r.cluster then before else 0
      let total := before + 1 + (gs.takeWhile (inCluster r.cluster)).length
      let related := if total > 1 then some ⟨r.cluster, before + 1, total⟩ else none
      { g with related } :: renumberFrom (some r.cluster) (before + 1) gs

/-- The groups with their runs numbered anew. -/
def renumber (groups : List Group) : List Group :=
  renumberFrom none 0 groups

/-- The groups below a removed one: the first of them keeps the blank line that
stood above the comments of the removed group. -/
def inheritBlank (removed : Group) : List Group → List Group
  | [] => []
  | g :: gs =>
    if g.comments.isEmpty ∧ removed.comments.head? = some [] then { g with comments := [[]] } :: gs
    else g :: gs

end Group

namespace KeywordList

def setGlobalFilter (l : KeywordList) (words : List Text) : KeywordList :=
  { l with globalFilter := words }

/-- The list with a new group, and the place where it landed: at `index` or at
the end. -/
def insertGroup? (l : KeywordList) (index : Nat) (kind : GroupKind) :
    Option (Nat × KeywordList) :=
  if kind.isWritable then
    let index := min index l.groups.length
    some (index, { l with groups := Group.renumber (l.groups.insertIdx index (.ofKind kind)) })
  else none

def removeGroup? (l : KeywordList) (index : Nat) : Option KeywordList :=
  match l.groups[index]? with
  | none => none
  | some removed =>
    let rest := l.groups.take index ++ removed.inheritBlank (l.groups.drop (index + 1))
    some { l with groups := Group.renumber rest }

/-- The list with a group moved to another place; it leaves its run. -/
def moveGroup? (l : KeywordList) (source target : Nat) : Option KeywordList :=
  match l.groups[source]? with
  | none => none
  | some g =>
    if l.groups.length ≤ target then none
    else if source = target then some l
    else
      let rest := l.groups.eraseIdx source
      some { l with groups := Group.renumber (rest.insertIdx target { g with related := none }) }

/-- The list with one group given another content; `change` refuses some. -/
def changeKind? (l : KeywordList) (index : Nat) (change : GroupKind → Option GroupKind) :
    Option KeywordList :=
  (l.groups[index]?).bind fun g =>
    (change g.kind).map fun kind => { l with groups := l.groups.set index { g with kind } }

/-- The list with other keywords in a group; a plain group keeps at least
one. -/
def setKeywords? (l : KeywordList) (index : Nat) (keywords : List Text) : Option KeywordList :=
  if keywords.all isKeyword then
    l.changeKind? index fun
      | .plain _ => if keywords.isEmpty then none else some (.plain keywords)
      | .named name _ => some (.named name keywords)
      | _ => none
  else none

/-- The list with another name of a group; a plain group gets a name. -/
def renameGroup? (l : KeywordList) (index : Nat) (name : Text) : Option KeywordList :=
  if isGroupName name then
    l.changeKind? index fun
      | .plain keywords => some (.named name keywords)
      | .named _ keywords => some (.named name keywords)
      | _ => none
  else none

def addAlias? (l : KeywordList) (index : Nat) (item : Alias) : Option KeywordList :=
  if item.isWritable then
    l.changeKind? index fun
      | .single first => some (.cluster [first, item])
      | .cluster items => some (.cluster (items ++ [item]))
      | _ => none
  else none

/-- The list with one alias less; without its only alias a group is removed. -/
def removeAlias? (l : KeywordList) (index item : Nat) : Option KeywordList :=
  match (l.groups[index]?).map Group.kind with
  | some (.single _) => if item = 0 then l.removeGroup? index else none
  | some (.cluster items) =>
    if item < items.length then
      l.changeKind? index fun _ => some (.ofAliases (items.eraseIdx item))
    else none
  | _ => none

end KeywordList

/-- A change that a form makes to a keyword list. -/
inductive KeywordEdit where
  | setGlobalFilter (words : List Text)
  | insertGroup (index : Nat) (kind : GroupKind)
  | removeGroup (index : Nat)
  | moveGroup (source target : Nat)
  | setKeywords (index : Nat) (keywords : List Text)
  | renameGroup (index : Nat) (name : Text)
  | addAlias (index : Nat) (item : Alias)
  | removeAlias (index item : Nat)
  deriving DecidableEq, Repr

namespace KeywordEdit

/-- The list after an edit, unless it is refused. -/
def run? (l : KeywordList) : KeywordEdit → Option KeywordList
  | setGlobalFilter words => some (l.setGlobalFilter words)
  | insertGroup index kind => (l.insertGroup? index kind).map (·.2)
  | removeGroup index => l.removeGroup? index
  | moveGroup source target => l.moveGroup? source target
  | setKeywords index keywords => l.setKeywords? index keywords
  | renameGroup index name => l.renameGroup? index name
  | addAlias index item => l.addAlias? index item
  | removeAlias index item => l.removeAlias? index item

end KeywordEdit

end Marginalia.Keywords
