import Marginalia.Yaml.Source

/-!
# Tokens

The tokens that a document consists of, and the folding of the white space
between the words of a scalar.
-/

namespace Marginalia.Yaml

inductive Token where
  | versionDirective (major minor : Nat)
  | tagDirective (handle lead : Text)
  | documentStart
  | documentEnd
  | blockSequenceStart
  | blockMappingStart
  | blockEnd
  | flowSequenceStart
  | flowSequenceEnd
  | flowMappingStart
  | flowMappingEnd
  | blockEntry
  | flowEntry
  | key
  | value
  | aliasTo (name : Text)
  | anchor (name : Text)
  /-- A tag; the handle is empty for a tag that is written out. -/
  | tag (handle suffix : Text)
  /-- A scalar; `bare` holds when neither quotes nor a block header were
  written. -/
  | scalar (bare : Bool) (text : Text)
  deriving DecidableEq, Repr

/-- The white space behind a word of a scalar.  The texts are in reverse. -/
inductive Gap where
  /-- Blanks on one line. -/
  | blanks (written : Text)
  /-- A first line break, which is missing behind an escaped one, and the breaks
  after it. -/
  | breaks (first more : Text)
  /-- An escaped line break follows. -/
  | escaped
  deriving DecidableEq, Repr

namespace Gap

def empty : Gap :=
  blanks []

/-- The gap with a blank behind it; blanks behind a line break do not count. -/
def blank (c : Char) : Gap → Gap
  | blanks written => blanks (c :: written)
  | g => g

/-- The gap with a line break behind it. -/
def lineBreak (c : Char) : Gap → Gap
  | blanks _ => breaks [c] []
  | breaks first more => breaks first (c :: more)
  | escaped => breaks [] []

/-- What a gap between two words stands for, in reverse: blanks stand for
themselves, one line feed for a space, and a line feed with more breaks for
those breaks. -/
def fold : Gap → Text
  | blanks written => written
  | breaks first more =>
    if first = ['\n'] then (if more.isEmpty then [' '] else more) else more ++ first
  | escaped => []

def hasBreak : Gap → Bool
  | breaks .. => true
  | _ => false

end Gap

end Marginalia.Yaml
