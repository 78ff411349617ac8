import Marginalia.Text.Line

/-!
# Lines of a keyword list

Each line of a keyword list has a class, decided without its neighbours and in a
fixed order: blank, sentinel, comment, name of a group, alias, keyword.
-/

namespace Marginalia.Keywords

inductive Section where
  /-- Words that drop a title everywhere. -/
  | globalFilter
  /-- Groups of keywords. -/
  | wordGroups
  deriving DecidableEq, Repr

namespace Section

/-- The line that opens a section. -/
def sentinel : Section → Text
  | globalFilter => "[GLOBAL_FILTER]".toList
  | wordGroups => "[WORD_GROUPS]".toList

/-- The section that a line without the white space around it opens. -/
def ofSentinel? (trimmed : Text) : Option Section :=
  if trimmed = globalFilter.sentinel then some globalFilter
  else if trimmed = wordGroups.sentinel then some wordGroups
  else none

end Section

inductive LineClass where
  | blank
  /-- A comment, without the white space at its end. -/
  | comment (written : Text)
  | sentinel (opened : Section)
  /-- A name between brackets. -/
  | name (name : Text)
  /-- A pattern and the alias that it is shown as. -/
  | arrow (pattern target : Text)
  | keyword (keyword : Text)
  deriving DecidableEq, Repr

namespace LineClass

/-- The name in a line of brackets, which hold at least one character. -/
def bracketed? (trimmed : Text) : Option Text :=
  match trimmed with
  | '[' :: r =>
    match Text.dropSuffix? [']'] r with
    | some (c :: cs) => some (Text.trim (c :: cs))
    | _ => none
  | _ => none

/-- The first arrow that has text behind it, as the text before it and the text
behind it. -/
def splitArrow? : Text → Option (Text × Text)
  | '=' :: '>' :: c :: r => some ([], c :: r)
  | c :: r => (splitArrow? r).map fun (left, right) => (c :: left, right)
  | [] => none

/-- The pattern and the alias of a line without the white space around it.  The
pattern has at least one character, so an arrow at the start is none. -/
def arrow? (trimmed : Text) : Option (Text × Text) :=
  match trimmed with
  | [] => none
  | c :: r =>
    (splitArrow? r).map fun (left, right) => (Text.trimEnd (c :: left), Text.trim right)

def ofContent (content : Text) : LineClass :=
  let trimmed := Text.trim content
  if trimmed.isEmpty then blank
  else
    match Section.ofSentinel? trimmed with
    | some opened => sentinel opened
    | none =>
      if trimmed.head? = some '#' then comment (Text.trimEnd content)
      else
        match bracketed? trimmed with
        | some n => name n
        | none =>
          match arrow? trimmed with
          | some (pattern, target) => arrow pattern target
          | none => keyword trimmed

end LineClass

end Marginalia.Keywords
