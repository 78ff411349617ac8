import Marginalia.Moment.Reader
import Marginalia.Toml.Reader

/-!
# Times of saving

The store remembers for each document when it was saved last.  The times stand
in a small TOML document, an entry for each document that was ever saved.
-/

namespace Marginalia

inductive DocumentKind where
  | config
  | keywords
  deriving DecidableEq, Repr

namespace DocumentKind

def fileName : DocumentKind → Text
  | config => "config.yaml".toList
  | keywords => "frequency_words.txt".toList

end DocumentKind

structure SavedState where
  config : Option Moment
  keywords : Option Moment
  deriving DecidableEq, Repr

namespace SavedState

def empty : SavedState :=
  ⟨none, none⟩

def savedAt (s : SavedState) : DocumentKind → Option Moment
  | .config => s.config
  | .keywords => s.keywords

def set (s : SavedState) (kind : DocumentKind) (at_ : Moment) : SavedState :=
  match kind with
  | .config => { s with config := some at_ }
  | .keywords => { s with keywords := some at_ }

def key : DocumentKind → Text
  | .config => "config_saved_at".toList
  | .keywords => "keywords_saved_at".toList

/-- The time of a document among the entries: a string, which may be missing. -/
def time? (es : Toml.Entries) (kind : DocumentKind) : Option (Option Moment) :=
  match es.get? (key kind) with
  | none => some none
  | some (.str t) => (Moment.ofText? t).map some
  | some _ => none

/-- The times of a text.  Other entries do not matter. -/
def ofText? (t : Text) : Option SavedState := do
  let es ← Toml.Entries.ofText? t
  return ⟨← time? es .config, ← time? es .keywords⟩

def line (s : SavedState) (kind : DocumentKind) : Text :=
  match s.savedAt kind with
  | none => []
  | some m => key kind ++ [' ', '=', ' '] ++ Toml.Quoted.write m.toText ++ ['\n']

def toText (s : SavedState) : Text :=
  s.line .config ++ s.line .keywords

end SavedState

end Marginalia
