import Marginalia.Number.Decimal
import Marginalia.Text.Basic

/-!
# TOML documents

A document is a table of entries, some of which are tables again.  A table
remembers how it came to be, because that decides who may add to it: a table
named on the way to a header may still get a header of its own, a table named by
a dotted key grows by dotted keys only, and an inline table is complete.

The two ways of adding to a document are `Table.insert?` for the entries and
`Table.openHeader?` for the headers.
-/

namespace Marginalia.Toml

/-- How a table came to be. -/
inductive Origin where
  /-- It was named on the way to a header. -/
  | implied
  /-- It was named on the way to a key. -/
  | dotted
  /-- It has a header of its own, or is the document itself. -/
  | header
  /-- It was written as a value. -/
  | inline
  deriving DecidableEq, Repr

inductive Value where
  | str (t : Text)
  | int (i : Int)
  | float (x : Binary64)
  | bool (b : Bool)
  /-- A date, a time or both, as written. -/
  | time (written : Text)
  | array (items : List Value)
  /-- Tables that share one header, each a table. -/
  | tables (items : List Value)
  | table (origin : Origin) (entries : List (Text × Value))

/-- The entries of a table in the order in which they were written. -/
abbrev Entries := List (Text × Value)

namespace Entries

def get? (es : Entries) (key : Text) : Option Value :=
  (es.find? fun e => e.1 = key).map (·.2)

def replace (es : Entries) (key : Text) (v : Value) : Entries :=
  es.map fun e => if e.1 = key then (key, v) else e

end Entries

namespace Table

/-- The entries of a table, changed at the end of a path of keys.  The tables on
the way are made where they are missing; of tables that share a header the last
one counts.  A dotted key passes no table that has a header. -/
def descend? (made : Origin) (change : Origin → Entries → Option (Origin × Entries)) :
    (path : List Text) → Origin → Entries → Option (Origin × Entries)
  | [], origin, es => change origin es
  | key :: path, origin, es =>
    match es.get? key with
    | none =>
      (descend? made change path made []).map fun (o, inner) =>
        (origin, es ++ [(key, .table o inner)])
    | some (.table .inline _) => none
    | some (.table o inner) =>
      if made = .dotted ∧ o = .header then none
      else
        (descend? made change path o inner).map fun (o, inner) =>
          (origin, es.replace key (.table o inner))
    | some (.tables items) =>
      match items.getLast? with
      | some (.table o inner) =>
        (descend? made change path o inner).map fun (o, inner) =>
          (origin, es.replace key (.tables (items.dropLast ++ [.table o inner])))
      | _ => none
    | some _ => none

/-- The entries with one more; a key stands once in a table. -/
def add? (key : Text) (v : Value) (origin : Origin) (es : Entries) : Option (Origin × Entries) :=
  match es.get? key with
  | none => some (origin, es ++ [(key, v)])
  | some _ => none

/-- The entries with one more under a dotted key, whose last part is given
apart. -/
def insert? (path : List Text) (key : Text) (v : Value) (origin : Origin) (es : Entries) :
    Option (Origin × Entries) :=
  descend? .dotted
    (fun o inner => if path ≠ [] ∧ o ≠ .dotted then none else add? key v o inner) path origin es

/-- The entries with a table that now has its header. -/
def openTable? (key : Text) (origin : Origin) (es : Entries) : Option (Origin × Entries) :=
  match es.get? key with
  | none => some (origin, es ++ [(key, .table .header [])])
  | some (.table .implied inner) => some (origin, es.replace key (.table .header inner))
  | some _ => none

/-- The entries with one more table among those that share a header. -/
def openItem? (key : Text) (origin : Origin) (es : Entries) : Option (Origin × Entries) :=
  match es.get? key with
  | none => some (origin, es ++ [(key, .tables [.table .header []])])
  | some (.tables items) => some (origin, es.replace key (.tables (items ++ [.table .header []])))
  | some _ => none

/-- The document after a header, whose last part is given apart. -/
def openHeader? (repeated : Bool) (path : List Text) (key : Text) (es : Entries) :
    Option Entries :=
  (descend? .implied (if repeated then openItem? key else openTable? key) path .header es).map
    (·.2)

/-- The document after an entry below the header `above`. -/
def insertBelow? (above path : List Text) (key : Text) (v : Value) (es : Entries) :
    Option Entries :=
  (descend? .implied (insert? path key v) above .header es).map (·.2)

end Table

end Marginalia.Toml
