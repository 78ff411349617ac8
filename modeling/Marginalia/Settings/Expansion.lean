import Marginalia.Text.Basic

/-!
# Expanding paths

A path may name the home directory by a tilde at its start and variables of the
environment behind dollar signs.  A variable that is not set leaves the whole
path as it was written.
-/

namespace Marginalia

/-- What a process knows of its surroundings. -/
structure Environment where
  /-- The variables with their values; of several with one name the first
  counts. -/
  bindings : List (Text × Text)
  /-- The home directory of the account that the process runs under. -/
  accountHome : Option Text
  deriving DecidableEq, Repr

namespace Environment

def lookup (env : Environment) (name : Text) : Option Text :=
  env.bindings.lookup name

/-- The home directory: the one that the variable names, or else that of the
account. -/
def home? (env : Environment) : Option Text :=
  match env.lookup "HOME".toList with
  | some (c :: home) => some (c :: home)
  | _ => env.accountHome

end Environment

namespace Expansion

/-- A path with a tilde at its start, alone or before a slash, replaced by the
home directory. -/
def tilde (env : Environment) (t : Text) : Text :=
  match t with
  | '~' :: r =>
    if r.isEmpty ∨ r.head? = some '/' then
      match env.home? with
      | some home => home ++ r
      | none => t
    else t
  | _ => t

/-- The characters of the name of a variable without braces. -/
def isNamePart (c : Char) : Bool :=
  CharClass.isAlphanumAnywhere c || c == '_'

/-- The two sides of the first `:-`. -/
def splitDefault? : Text → Option (Text × Text)
  | ':' :: '-' :: r => some ([], r)
  | c :: r => (splitDefault? r).map fun (left, right) => (c :: left, right)
  | [] => none

/-- What stands for a variable in braces, given what stands between them.  A
default may follow the name; it counts when the variable is not set or empty.
An empty variable without a default stays as it was written. -/
def braced? (env : Environment) (inside : Text) : Option Text :=
  let (name, fallback) : Text × Option Text :=
    match splitDefault? inside with
    | some (c :: name, fallback) => (c :: name, some fallback)
    | _ => (inside, none)
  match env.lookup name, fallback with
  | some (c :: value), _ => some (c :: value)
  | _, some fallback => some fallback
  | some [], none => some ('$' :: '\x7b' :: inside ++ ['\x7d'])
  | none, none => none

/-- A text with its variables replaced; none when one of them is not set.  Two
dollar signs stand for one, and a dollar sign before anything else stays.  Each
step consumes a character, so the length of the text bounds the steps. -/
def replaceVariables? (env : Environment) : (limit : Nat) → Text → Option Text
  | 0, t => some t
  | _, [] => some []
  | limit + 1, '$' :: r =>
    match r with
    | '\x7b' :: inner =>
      match Text.splitFirst? '\x7d' inner with
      | none => (replaceVariables? env limit inner).map ('$' :: '\x7b' :: ·)
      | some (inside, rest) => do
        return (← braced? env inside) ++ (← replaceVariables? env limit rest)
    | '$' :: rest => (replaceVariables? env limit rest).map ('$' :: ·)
    | _ =>
      let name := r.takeWhile isNamePart
      if name.isEmpty then (replaceVariables? env limit r).map ('$' :: ·)
      else do
        return (← env.lookup name) ++ (← replaceVariables? env limit (r.dropWhile isNamePart))
  | limit + 1, c :: r => (replaceVariables? env limit r).map (c :: ·)

/-- A path expanded.  A tilde that came out of a variable is no home
directory. -/
def path (env : Environment) (t : Text) : Text :=
  match replaceVariables? env t.length t with
  | none => t
  | some expanded => if t.head? = some '~' then tilde env expanded else expanded

end Expansion

end Marginalia
