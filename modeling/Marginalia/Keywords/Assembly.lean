import Marginalia.Keywords.Group
import Marginalia.Keywords.Line

/-!
# Reading a keyword list

The lines of a text are taken one after another into an `Assembly`.  A group is
open until a line of another shape, a comment, a blank line or a sentinel comes;
closed groups wait in a run until a blank line or a sentinel ends it, and are
numbered then.  Comments wait for the group below them.

Content before any sentinel belongs to the groups, and comments outside the
groups are not kept.
-/

namespace Marginalia.Keywords

inductive OpenKind where
  | plain (keywords : List Text)
  | named (name : Text) (keywords : List Text)
  | aliases (items : List Alias)
  deriving DecidableEq, Repr

namespace OpenKind

def close : OpenKind → GroupKind
  | plain keywords => .plain keywords
  | named name keywords => .named name keywords
  | aliases items => .ofAliases items

end OpenKind

structure OpenGroup where
  start : Nat
  comments : List Text
  kind : OpenKind
  deriving DecidableEq, Repr

/-- A keyword list of which some lines were read. -/
structure Assembly where
  opened : Option Section
  leaf : Option OpenGroup
  /-- Comments and blank lines that wait for a group. -/
  pending : List Text
  /-- The number of blank lines while no comment waited. -/
  gap : Nat
  /-- Whether the place is in the comments directly below a sentinel. -/
  afterSentinel : Bool
  /-- The closed groups since the last blank line. -/
  run : List Group
  nextCluster : Nat
  list : KeywordList
  deriving DecidableEq, Repr

namespace Assembly

def empty : Assembly :=
  { opened := none
    leaf := none
    pending := []
    gap := 0
    afterSentinel := false
    run := []
    nextCluster := 0
    list := .empty }

/-- The open group, closed and put into the run. -/
def closeLeaf (a : Assembly) : Assembly :=
  match a.leaf with
  | none => a
  | some g =>
    { a with leaf := none, run := a.run ++ [⟨g.kind.close, g.start, g.comments, none⟩] }

/-- The groups of a run, numbered when there are several. -/
def numberRun (cluster : Nat) (run : List Group) : List Group :=
  if run.length > 1 then
    run.mapIdx fun i g => { g with related := some ⟨cluster, i + 1, run.length⟩ }
  else run

/-- The run, ended and put behind the groups. -/
def flushRun (a : Assembly) : Assembly :=
  { a with
    run := []
    nextCluster := if a.run.length > 1 then a.nextCluster + 1 else a.nextCluster
    list := { a.list with groups := a.list.groups ++ numberRun a.nextCluster a.run } }

/-- Some group was read, whether its run ended or not. -/
def hasGroups (a : Assembly) : Bool :=
  !a.list.groups.isEmpty || !a.run.isEmpty

/-- Content comes: without a sentinel so far it belongs to the groups. -/
def enter (a : Assembly) : Assembly :=
  { a with afterSentinel := false, opened := some (a.opened.getD .wordGroups) }

/-- A new open group, which takes the comments that waited. -/
def openLeaf (a : Assembly) (start : Nat) (kind : OpenKind) : Assembly :=
  let a := a.closeLeaf
  { a with leaf := some ⟨start, a.pending, kind⟩, pending := [], gap := 0 }

/-- A comment ends the group above it but not the run.  It waits for the next
group, with the blank lines above it unless no group came yet. -/
def pushComment (a : Assembly) (written : Text) : Assembly :=
  if a.afterSentinel ∨ a.opened ≠ some .wordGroups then a
  else
    let a := a.closeLeaf
    let blanks := if a.hasGroups then List.replicate a.gap [] else []
    { a with gap := 0, pending := a.pending ++ blanks ++ [written] }

/-- A blank line ends the group above it and its run. -/
def pushBlank (a : Assembly) : Assembly :=
  let a := { a with afterSentinel := false }
  if a.opened ≠ some .wordGroups then a
  else
    let a := a.closeLeaf.flushRun
    if a.pending.isEmpty then { a with gap := a.gap + 1 }
    else { a with pending := a.pending ++ [[]] }

/-- A sentinel ends the section above it; comments that wait are dropped. -/
def pushSentinel (a : Assembly) (opened : Section) : Assembly :=
  { a.closeLeaf.flushRun with
    pending := []
    gap := 0
    opened := some opened
    afterSentinel := true }

def pushName (a : Assembly) (index : Nat) (name : Text) : Assembly :=
  a.enter.openLeaf index (.named name [])

/-- An alias joins the aliases above it or opens a group. -/
def pushAlias (a : Assembly) (index : Nat) (item : Alias) : Assembly :=
  let a := a.enter
  match a.leaf with
  | some ⟨start, comments, .aliases items⟩ =>
    { a with leaf := some ⟨start, comments, .aliases (items ++ [item])⟩ }
  | _ => a.openLeaf index (.aliases [item])

/-- A keyword joins the keywords above it or opens a group. -/
def pushKeyword (a : Assembly) (index : Nat) (keyword : Text) : Assembly :=
  let a := a.enter
  match a.leaf with
  | some ⟨start, comments, .plain keywords⟩ =>
    { a with leaf := some ⟨start, comments, .plain (keywords ++ [keyword])⟩ }
  | some ⟨start, comments, .named name keywords⟩ =>
    { a with leaf := some ⟨start, comments, .named name (keywords ++ [keyword])⟩ }
  | _ => a.openLeaf index (.plain [keyword])

/-- A line of content in the global section is a word, whatever its shape. -/
def pushWord (a : Assembly) (word : Text) : Assembly :=
  { a with
    afterSentinel := false
    list := { a.list with globalFilter := a.list.globalFilter ++ [word] } }

def push (a : Assembly) (l : Line) : Assembly :=
  match LineClass.ofContent l.content with
  | .sentinel opened => a.pushSentinel opened
  | .comment written => a.pushComment written
  | .blank => a.pushBlank
  | .name name =>
    if a.opened = some .globalFilter then a.pushWord (Text.trim l.content)
    else a.pushName l.index name
  | .arrow pattern target =>
    if a.opened = some .globalFilter then a.pushWord (Text.trim l.content)
    else a.pushAlias l.index ⟨pattern, target⟩
  | .keyword keyword =>
    if a.opened = some .globalFilter then a.pushWord (Text.trim l.content)
    else a.pushKeyword l.index keyword

/-- The list after the last line.  The blank line that follows the last group
when the list is written is not kept as a comment. -/
def finish (a : Assembly) : KeywordList :=
  let a := a.closeLeaf.flushRun
  let trailing :=
    if ¬a.list.groups.isEmpty ∧ a.pending.head? = some [] then a.pending.tail else a.pending
  { a.list with trailing }

end Assembly

namespace KeywordList

/-- The keyword list of a text; every text is one. -/
def ofText (t : Text) : KeywordList :=
  (t.lines.foldl Assembly.push Assembly.empty).finish

end KeywordList

end Marginalia.Keywords
