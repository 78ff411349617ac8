import Marginalia.Yaml.Lookup

/-!
# What a form shows of a configuration

The modules of a configuration are its top-level keys, found line by line, so
they are shown also when the text has no value.  The fields, the lists and the
flags come from the value.
-/

namespace Marginalia

structure ModuleSummary where
  key : Text
  lines : Yaml.LineRange
  /-- The flag of the module, when it has one. -/
  enabled : Option Bool
  deriving DecidableEq, Repr

/-- What a form shows of a configuration. -/
structure ConfigView where
  modules : List ModuleSummary
  value : Except Yaml.Error Yaml.Value

namespace ConfigView

def value? (v : ConfigView) : Option Yaml.Value :=
  v.value.toOption

/-- Why the text has no value, if it has none. -/
def problem? (v : ConfigView) : Option Yaml.Error :=
  match v.value with
  | .ok _ => none
  | .error e => some e

def enabledFlag (value : Option Yaml.Value) (module : Text) : Option Bool :=
  (value.bind (·.lookup module "enabled".toList)).bind Yaml.Value.flag?

def ofText (t : Text) : ConfigView :=
  let value := Yaml.Value.ofText t
  let modules := (Yaml.Outline.ofText t).modules.map fun (key, lines) =>
    ⟨key, lines, enabledFlag value.toOption key⟩
  ⟨modules, value⟩

/-- The first module with a key. -/
def module? (v : ConfigView) (key : Text) : Option ModuleSummary :=
  v.modules.find? fun m => m.key = key

/-- The scalar at a path. -/
def field? (v : ConfigView) (module path : Text) : Option Yaml.Scalar :=
  (v.value?.bind (·.lookup module path)).bind Yaml.Scalar.ofValue?

/-- The items of the list at a path; none when the text has no value. -/
def list (v : ConfigView) (module path : Text) : List Yaml.ListItem :=
  (v.value?.map (·.listItems module path)).getD []

/-- The names of an order list with their flags; none when the text has no
value. -/
def orderedFlags (v : ConfigView) (module orderPath mapPath : Text) : List (Text × Bool) :=
  (v.value?.map (·.orderedFlags module orderPath mapPath)).getD []

end ConfigView

end Marginalia
