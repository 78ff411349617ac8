import Marginalia.Editor.Basic

/-!
# Commands

Each command of the editor has a key.  The keys that change a document work on
its tab only.
-/

namespace Marginalia

inductive Command where
  | quit
  | switchTab
  | next
  | previous
  | toggle
  | dropGroup
  | dropAlias
  | save
  | reload
  | templates
  | versions
  deriving DecidableEq, Repr

namespace Command

/-- The command of a key on a tab. -/
def ofKey? (tab : Tab) (key : Char) : Option Command :=
  match key, tab with
  | 'q', _ => some quit
  | '\t', _ => some switchTab
  | 'j', _ => some next
  | 'k', _ => some previous
  | ' ', .config => some toggle
  | 'd', .keywords => some dropGroup
  | 'x', .keywords => some dropAlias
  | 's', _ => some save
  | 'r', _ => some reload
  | 't', _ => some templates
  | 'v', _ => some versions
  | _, _ => none

end Command

namespace Editor

/-- The editor after a load that may have failed; the status tells of a
failure. -/
def reloadOrTell (e : Editor) (now : Nat) : Editor :=
  match e.reload now with
  | (.ok (), e) => e
  | (.error fault, e) => { e with status := "Reload failed: ".toList ++ fault.message }

/-- The editor after a command.  Quitting saves. -/
def run (e : Editor) (fetch : Fetch) (clock : Clock) : Command → Editor
  | .quit => e.save clock
  | .switchTab => e.switchTab
  | .next => e.next
  | .previous => e.previous
  | .toggle => e.toggleEnabled clock.instant
  | .dropGroup => e.removeGroup clock.instant
  | .dropAlias => e.removeLastAlias clock.instant
  | .save => e.save clock
  | .reload => e.reloadOrTell clock.instant
  | .templates => e.fetchTemplates fetch clock.instant
  | .versions => e.checkVersions fetch

/-- A star for a document with unsaved changes. -/
def dirtyMark (dirty : Bool) : Text :=
  if dirty then ['*'] else []

/-- The status, behind the marks of the two documents. -/
def statusLine (e : Editor) : Text :=
  "config".toList ++ dirtyMark e.config.isDirty ++ " keywords".toList ++
    dirtyMark e.keywords.isDirty ++ " | ".toList ++ e.status

end Editor

end Marginalia
