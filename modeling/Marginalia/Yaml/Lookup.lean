import Marginalia.Yaml.Outline
import Marginalia.Yaml.Patch
import Marginalia.Yaml.Value

/-!
# Reading fields

What a form shows of a document: the value at a dotted path of a module, a list
as items that can be written back, an order list together with the flags beside
it.  A tag on a value does not hide what is inside it, unless a list is read
item by item.
-/

namespace Marginalia.Yaml

namespace Value

/-- A value without the tags around it. -/
def untagged : Value → Value
  | tagged _ v => untagged v
  | v => v

def str? (v : Value) : Option Text :=
  match v.untagged with
  | str s => some s
  | _ => none

def flag? (v : Value) : Option Bool :=
  match v.untagged with
  | bool b => some b
  | _ => none

def get? (v : Value) (key : Text) : Option Value :=
  match v.untagged with
  | map entries =>
    (entries.find? fun (k, _) =>
      match k with
      | str s => s == key
      | _ => false).map (·.2)
  | _ => none

/-- The value at a dotted path of a module. -/
def lookup (root : Value) (module dotted : Text) : Option Value :=
  (Outline.segments dotted).foldl (fun v? segment => v?.bind (·.get? segment)) (root.get? module)

/-- The string keys of the root, in document order. -/
def moduleKeys (root : Value) : List Text :=
  match root.untagged with
  | map entries => entries.filterMap fun (k, _) => k.str?
  | _ => []

end Value

namespace Scalar

/-- The greatest integer of a scalar; a greater one is read as a float. -/
def greatestInt : Int := Int.pow 2 63 - 1

/-- A value without parts, as a scalar. -/
def ofValue? : Value → Option Scalar
  | .null => some null
  | .bool b => some (bool b)
  | .int i => if i ≤ greatestInt then some (int i) else some (float (Binary64.ofInt i))
  | .float x => some (float x)
  | .str s => some (str s)
  | _ => none

end Scalar

namespace Value

/-- An item of a list that can be written back: a scalar, or the scalar fields
of a mapping. -/
def listItem? : Value → Option ListItem
  | map entries =>
    some (.record (entries.filterMap fun (k, v) =>
      k.str?.bind fun key => (Scalar.ofValue? v).map (key, ·)))
  | v => (Scalar.ofValue? v).map .scalar

/-- The items of the list at a path; other nested values are left out. -/
def listItems (root : Value) (module dotted : Text) : List ListItem :=
  match root.lookup module dotted with
  | some (seq items) => items.filterMap listItem?
  | _ => []

/-- The names of an order list with their flags; a name without a flag counts as
enabled. -/
def orderedFlags (root : Value) (module orderPath mapPath : Text) : List (Text × Bool) :=
  let flags := root.lookup module mapPath
  match (root.lookup module orderPath).map untagged with
  | some (seq items) =>
    (items.filterMap str?).map fun name =>
      (name, ((flags.bind (·.get? name)).bind flag?).getD true)
  | _ => []

end Value

end Marginalia.Yaml
