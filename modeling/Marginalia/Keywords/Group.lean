import Marginalia.Text.Basic

/-!
# Keyword lists

A keyword list is a list of words that drop a title everywhere, a list of
groups, and the comments behind the last group.  A group is a run of keywords,
the same under a name, a single alias, or several aliases one below the other.
Groups without a blank line between them form a run, and each knows its place in
it.
-/

namespace Marginalia.Keywords

/-- What a keyword asks of a title, which its first character tells. -/
inductive KeywordClass where
  | mustInclude
  | exclude
  | restrict
  | regex
  | normal
  deriving DecidableEq, Repr

namespace KeywordClass

def ofKeyword (keyword : Text) : KeywordClass :=
  match keyword with
  | '+' :: _ => mustInclude
  | '!' :: _ => exclude
  | '@' :: _ => restrict
  | '/' :: _ => regex
  | _ => normal

end KeywordClass

/-- A pattern and the alias that it is shown as. -/
structure Alias where
  pattern : Text
  target : Text
  deriving DecidableEq, Repr

namespace Alias

def line (a : Alias) : Text :=
  a.pattern ++ [' ', '=', '>', ' '] ++ a.target

end Alias

/-- What a group consists of. -/
inductive GroupKind where
  | plain (keywords : List Text)
  | named (name : Text) (keywords : List Text)
  | single (item : Alias)
  | cluster (items : List Alias)
  deriving DecidableEq, Repr

namespace GroupKind

/-- Aliases as a group: one alone is not a cluster. -/
def ofAliases : List Alias → GroupKind
  | [item] => single item
  | items => cluster items

def lines : GroupKind → List Text
  | plain keywords => keywords
  | named name keywords => ('[' :: name ++ [']']) :: keywords
  | single item => [item.line]
  | cluster items => items.map Alias.line

def keywords : GroupKind → List Text
  | plain keywords => keywords
  | named _ keywords => keywords
  | _ => []

/-- A group on one line, for lists of groups. -/
def summary : GroupKind → Text
  | plain keywords => Text.joinWith [' '] keywords
  | named name keywords => '[' :: name ++ [']', ' '] ++ Text.joinWith [' '] keywords
  | single item => item.line
  | cluster items => Text.joinWith [',', ' '] (items.map Alias.line)

end GroupKind

/-- The place of a group in a run of groups without a blank line between
them. -/
structure Related where
  /-- The run; neighbouring runs have different ones. -/
  cluster : Nat
  /-- The place in the run, from one. -/
  index : Nat
  total : Nat
  deriving DecidableEq, Repr

namespace Related

/-- Whether another group of the run follows. -/
def continues (r : Related) : Bool :=
  decide (r.index < r.total)

end Related

/-- A group with what surrounds it. -/
structure Group where
  kind : GroupKind
  /-- The line of the text that the group was read from. -/
  start : Nat
  /-- The comments above the group; an empty one stands for a blank line. -/
  comments : List Text
  related : Option Related
  deriving DecidableEq, Repr

namespace Group

/-- A group of its own, without comments. -/
def ofKind (kind : GroupKind) : Group :=
  ⟨kind, 0, [], none⟩

/-- The number of lines of the group itself. -/
def lineCount (g : Group) : Nat :=
  g.kind.lines.length

/-- Whether the group belongs to a run with a given number. -/
def inCluster (cluster : Nat) (g : Group) : Bool :=
  (g.related.map (·.cluster)) == some cluster

end Group

structure KeywordList where
  globalFilter : List Text
  groups : List Group
  /-- The comments behind the last group. -/
  trailing : List Text
  deriving DecidableEq, Repr

namespace KeywordList

/-- The list without words and groups. -/
def empty : KeywordList :=
  ⟨[], [], []⟩

end KeywordList

end Marginalia.Keywords
