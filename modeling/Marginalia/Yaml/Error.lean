import Marginalia.Text.Basic

/-!
# What can be wrong with a document

The causes for which a document has no value, each with its wording.
-/

namespace Marginalia.Yaml

inductive Error where
  /-- A control character, or a character that documents must not hold. -/
  | forbiddenCharacter (c : Char)
  /-- A character that cannot start anything. -/
  | unexpectedCharacter (c : Char)
  /-- A dash, a question mark or a colon where no entry can start. -/
  | misplacedIndicator (c : Char)
  | keyWithoutColon
  | unclosedQuote
  | unknownEscape
  | tabAsIndentation
  | colonBeforeFlow
  | badBlockHeader
  | badAnchor
  | badTag
  | badDirective
  | unknownHandle (handle : Text)
  | unexpectedToken (expected : Text)
  | unknownAnchor (name : Text)
  | severalDocuments
  | duplicateKey
  | tooDeep
  | tooManyAliases
  | numberOutOfRange (written : Text)
  | badTaggedScalar (written expected : Text)
  deriving DecidableEq, Repr

namespace Error

def cause : Error → Text
  | forbiddenCharacter _ => "control characters are not allowed".toList
  | unexpectedCharacter c =>
    "found character '".toList ++ [c] ++ "' that cannot start any token".toList
  | misplacedIndicator c => "'".toList ++ [c] ++ "' is not allowed in this context".toList
  | keyWithoutColon => "could not find expected ':'".toList
  | unclosedQuote => "found unexpected end of a quoted scalar".toList
  | unknownEscape => "found unknown escape character".toList
  | tabAsIndentation => "found a tab where an indentation space is expected".toList
  | colonBeforeFlow => "found unexpected ':'".toList
  | badBlockHeader => "did not find expected header of a block scalar".toList
  | badAnchor => "did not find expected name of an anchor".toList
  | badTag => "did not find expected tag".toList
  | badDirective => "did not find expected directive".toList
  | unknownHandle handle => "found undefined tag handle ".toList ++ handle
  | unexpectedToken expected => "did not find expected ".toList ++ expected
  | unknownAnchor name => "unknown anchor ".toList ++ name
  | severalDocuments => "more than one document".toList
  | duplicateKey => "duplicate entry in a mapping".toList
  | tooDeep => "recursion limit exceeded".toList
  | tooManyAliases => "repetition limit exceeded".toList
  | numberOutOfRange written => "integer out of range: ".toList ++ written
  | badTaggedScalar written expected =>
    "invalid value ".toList ++ written ++ ", expected ".toList ++ expected

def message (e : Error) : Text :=
  "invalid YAML: ".toList ++ e.cause

end Error

end Marginalia.Yaml
