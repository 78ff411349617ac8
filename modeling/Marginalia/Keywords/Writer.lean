import Marginalia.Keywords.Group
import Marginalia.Keywords.Line

/-!
# Writing a keyword list

A keyword list is written as lines.  What belongs to no group is copied from the
text that the list was read from: the header before the first sentinel or
content, and the comments directly below either sentinel.  Without such a text a
banner stands for the header.

Between two groups stands one blank line, unless they belong to one run or the
comments of the second say how far it stands apart.
-/

namespace Marginalia.Keywords

/-- The parts of an earlier text that are copied. -/
structure Layout where
  header : List Text
  globalComments : List Text
  groupsComments : List Text
  deriving DecidableEq, Repr

namespace Layout

def banner : List Text :=
  ["# Keyword list",
    "#",
    "# [GLOBAL_FILTER] words drop any matching title everywhere.",
    "# [WORD_GROUPS] groups are separated by one blank line.",
    "#   +word   must include       !word   exclude",
    "#   @N      show at most N     /re/    regular expression",
    "#   [Name]  named group        a => b  display alias",
    "#",
    ""].map String.toList

/-- The layout of a list that was read from no text. -/
def fresh : Layout :=
  ⟨banner, [], []⟩

/-- A layout of which some lines were read. -/
structure Progress where
  layout : Layout
  inHeader : Bool
  /-- The sentinel whose comments are being read. -/
  under : Option Section
  deriving DecidableEq, Repr

namespace Progress

def below (p : Progress) (content trimmed : Text) : Progress :=
  match p.under, decide (trimmed.head? = some '#') with
  | some .globalFilter, true =>
    { p with layout := { p.layout with
        globalComments := p.layout.globalComments ++ [Text.trimEnd content] } }
  | some .wordGroups, true =>
    { p with layout := { p.layout with
        groupsComments := p.layout.groupsComments ++ [Text.trimEnd content] } }
  | _, _ => { p with under := none }

def push (p : Progress) (l : Line) : Progress :=
  let trimmed := Text.trim l.content
  match Section.ofSentinel? trimmed with
  | some opened => { p with inHeader := false, under := some opened }
  | none =>
    if p.inHeader ∧ (trimmed.isEmpty ∨ trimmed.head? = some '#') then
      { p with layout := { p.layout with header := p.layout.header ++ [l.content] } }
    else { p with inHeader := false }.below l.content trimmed

end Progress

def ofText (t : Text) : Layout :=
  (t.lines.foldl Progress.push ⟨⟨[], [], []⟩, true, none⟩).layout

end Layout

namespace Group

/-- Whether a blank line follows a group. -/
def blankAfter (g : Group) (next : Option Group) : Bool :=
  match next with
  | none => true
  | some n => n.comments.isEmpty && !((g.related.map (·.continues)).getD false)

/-- The lines of a group with its comments and the blank line behind it. -/
def block (comments : List Text) (g : Group) (next : Option Group) : List Text :=
  comments ++ g.kind.lines ++ (if g.blankAfter next then [[]] else [])

def blocks : List Group → List Text
  | [] => []
  | g :: gs => g.block g.comments gs.head? ++ blocks gs

end Group

namespace KeywordList

/-- The lines of the groups; the blank line of the section already stands above
the first one. -/
def groupLines (l : KeywordList) : List Text :=
  match l.groups with
  | [] => []
  | g :: gs => Group.block (g.comments.dropWhile (·.isEmpty)) g gs.head? ++ Group.blocks gs

def lines (l : KeywordList) (layout : Layout) : List Text :=
  let gap : List Text := if l.groups.isEmpty && l.trailing.isEmpty then [] else [[]]
  layout.header ++ [Section.globalFilter.sentinel] ++ layout.globalComments ++ l.globalFilter ++
    [[]] ++ [Section.wordGroups.sentinel] ++ layout.groupsComments ++ gap ++ l.groupLines ++
    l.trailing

/-- Lines as a text, each ended by a line feed. -/
def unlines (ls : List Text) : Text :=
  ls.flatMap (· ++ ['\n'])

/-- The text of a list, with what is copied from an earlier text. -/
def toText (l : KeywordList) (earlier : Option Text) : Text :=
  unlines (l.lines ((earlier.map Layout.ofText).getD .fresh))

end KeywordList

end Marginalia.Keywords
