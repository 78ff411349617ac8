import Marginalia.Session.Debounce
import Marginalia.Store.Basic
import Marginalia.Text.Buffer
import Marginalia.Yaml.Error

/-!
# Sessions

A session holds one document while it is edited.  The text is all that counts:
what a form shows is derived from it, kept with the version that it was derived
from, and never written back.  Each call that may change the text ends by
rendering what the form then shows.

An unsaved change waits for a quiet period before it is written to the store.  A
save that fails leaves the text as it is and waits for another quiet period.
-/

namespace Marginalia

/-- A kind of document: what a form shows of a text, and the edits that a change
of the form makes in the text. -/
class Document (View : Type) (Change : outParam Type) where
  kind : DocumentKind
  /-- What the form shows of a text. -/
  ofText : Text → View
  /-- Why the text is not valid, if it is not. -/
  problem? : View → Option Yaml.Error
  /-- The edits of a change, given the text and what the form shows of it; none
  when the change is refused. -/
  splices : Text → View → Change → List Edit

inductive LoadSource where
  /-- The store, so the text is saved. -/
  | storage
  | drop
  | remote
  | template
  deriving DecidableEq, Repr

/-- The outcome of a load.  The text is taken also when it is not valid. -/
structure LoadReport where
  source : LoadSource
  patch : Patch
  problem : Option Yaml.Error
  deriving DecidableEq, Repr

namespace LoadReport

def isValid (r : LoadReport) : Bool :=
  r.problem.isNone

end LoadReport

inductive FetchError where
  | status (url : Text) (code : Nat)
  | transport (url message : Text)
  deriving DecidableEq, Repr

namespace FetchError

def message : FetchError → Text
  | status url code => url ++ " answered HTTP ".toList ++ Text.ofNat code
  | transport url message => "request to ".toList ++ url ++ " failed: ".toList ++ message

end FetchError

/-- What the clocks show. -/
structure Clock where
  /-- Milliseconds on the clock that deadlines are counted on. -/
  instant : Nat
  /-- The time of day that a save is stamped with. -/
  moment : Moment
  deriving DecidableEq, Repr

/-- One document while it is edited. -/
structure Session (View : Type) where
  buffer : Buffer
  /-- What was derived last, with the version that it was derived from. -/
  derived : Option (Nat × View)
  debounce : Debounce
  /-- What was rendered, the last one at the end. -/
  rendered : List View

namespace Session

variable {View Change : Type} [Document View Change]

def start (quiet : Nat) (t : Text) : Session View :=
  ⟨.ofText t, none, .idle quiet, []⟩

def text (s : Session View) : Text :=
  s.buffer.text

def isDirty (s : Session View) : Bool :=
  s.buffer.isDirty

def savePending (s : Session View) : Bool :=
  s.debounce.isPending

/-- What the form shows: what was derived from this version, or what the text
gives. -/
def shown (s : Session View) : View :=
  match s.derived with
  | some (version, v) => if version = s.buffer.version then v else Document.ofText s.text
  | none => Document.ofText s.text

/-- What the form shows, and the session that keeps it. -/
def view (s : Session View) : View × Session View :=
  let v := s.shown
  (v, { s with derived := some (s.buffer.version, v) })

/-- The session with what the form shows rendered. -/
def refresh (s : Session View) : Session View :=
  let (v, s) := s.view
  { s with rendered := s.rendered ++ [v] }

/-- The session after a change of the form.  A change that is refused, or that
leaves the text as it is, waits for no save. -/
def edit (s : Session View) (change : Change) (now : Nat) : Patch × Session View :=
  let (v, s) := s.view
  let (patch, buffer) := s.buffer.apply (Document.splices s.text v change)
  let debounce := if patch.isNoop then s.debounce else s.debounce.touch now
  (patch, { s with buffer, debounce }.refresh)

def load (s : Session View) (t : Text) (source : LoadSource) (now : Nat) :
    LoadReport × Session View :=
  let (patch, buffer) := s.buffer.replaceAll t
  let s :=
    if source = .storage then
      { s with buffer := buffer.markSaved, debounce := s.debounce.clear }
    else { s with buffer, debounce := s.debounce.touch now }
  let s := s.refresh
  (⟨source, patch, Document.problem? s.shown⟩, s)

/-- The session with a text that was fetched; a failure leaves it as it is. -/
def loadFetched (s : Session View) (outcome : Except FetchError Text) (now : Nat) :
    Except FetchError LoadReport × Session View :=
  match outcome with
  | .error e => (.error e, s)
  | .ok t =>
    let (report, s) := s.load t .remote now
    (.ok report, s)

/-- The unsaved changes, written to the store; whether there were any and they
were written. -/
def flush (s : Session View) (store : Store) (clock : Clock) : Bool × Session View × Store :=
  if s.isDirty then
    match store.save (Document.kind View) s.text clock.moment with
    | (.ok (), store) =>
      (true, { s with buffer := s.buffer.markSaved, debounce := s.debounce.clear }, store)
    | (.error _, store) => (false, { s with debounce := s.debounce.touch clock.instant }, store)
  else (false, { s with debounce := s.debounce.clear }, store)

/-- The unsaved changes, written when the quiet period is over. -/
def flushIfDue (s : Session View) (now : Nat) (store : Store) (clock : Clock) :
    Bool × Session View × Store :=
  if s.debounce.due now then s.flush store clock else (false, s, store)

end Session

end Marginalia
