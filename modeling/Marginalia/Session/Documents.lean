import Marginalia.Config.View
import Marginalia.Keywords.Edit
import Marginalia.Session.Basic

/-!
# The two documents of a session

A change of the configuration form patches the text where the field stands.  A
change of the keyword form edits the list that the text was read as; the list is
written again, and what differs is one edit.
-/

namespace Marginalia

open Keywords (KeywordList KeywordEdit)

inductive ConfigEdit where
  | setField (module path : Text) (value : Yaml.Scalar)
  | replaceList (module path : Text) (items : List Yaml.ListItem)
  | reorder (module orderPath mapPath : Text) (entries : List (Text × Bool))
  deriving DecidableEq, Repr

namespace ConfigEdit

/-- The edits of a change; a module or a path that is not in the text is a
miss. -/
def edits (t : Text) : ConfigEdit → Except Yaml.Miss (List Edit)
  | setField module path value => (Yaml.Patch.setScalar t module path value).map ([·])
  | replaceList module path items => Yaml.Patch.replaceList t module path items
  | reorder module orderPath mapPath entries =>
    Yaml.Patch.reorder t module orderPath mapPath entries

end ConfigEdit

/-- The text of a keyword list after an edit of the list that it was read as. -/
def Keywords.KeywordEdit.textAfter? (t : Text) (l : KeywordList) (e : KeywordEdit) : Option Text :=
  (e.run? l).map fun edited => edited.toText (some t)

instance : Document ConfigView ConfigEdit where
  kind := .config
  ofText := ConfigView.ofText
  problem? := ConfigView.problem?
  splices := fun t _ change => ((change.edits t).toOption).getD []

instance : Document KeywordList KeywordEdit where
  kind := .keywords
  ofText := KeywordList.ofText
  problem? := fun _ => none
  splices := fun t l change => ((change.textAfter? t l).bind (Edit.between? t)).toList

def Session.groupSpan? (s : Session KeywordList) (index : Nat) : Option Span :=
  (s.shown.groups[index]?).bind fun g => s.buffer.lineSpan? g.start

end Marginalia
