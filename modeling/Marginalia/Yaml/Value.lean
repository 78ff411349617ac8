import Marginalia.Number.Decimal
import Marginalia.Yaml.Node

/-!
# Values

The value of a document: what its scalars stand for, its collections, and tags
of its own.  A plain scalar is a null, a truth value or a number when it is
spelled like one, and a string otherwise; `Value.ofPlain` is that rule.
`Value.ofText` is the reading of a whole text.

Collections may be nested 128 deep, aliases followed a hundred times for each
event of the document, and no key of a mapping may come twice.
-/

namespace Marginalia.Yaml

/-- A value.  The integers that a document yields lie between the least 64-bit
signed and the greatest 64-bit unsigned one. -/
inductive Value where
  | null
  | bool (b : Bool)
  | int (i : Int)
  | float (x : Binary64)
  | str (s : Text)
  | seq (items : List Value)
  | map (entries : List (Value × Value))
  | tagged (name : Text) (value : Value)
  deriving Repr

namespace Value

def leastInt : Int := -Int.pow 2 63

def greatestInt : Int := Int.pow 2 64 - 1

/-! ## Plain scalars -/

/-- A sign and digits that start with a needless zero: such a scalar is a
string. -/
def hasLeadingZero (t : Text) : Bool :=
  let digits : Text :=
    match t with
    | '-' :: r => r
    | '+' :: r => r
    | r => r
  match digits with
  | '0' :: d :: ds => (d :: ds).all Char.isDigit
  | _ => false

/-- A number in hexadecimal, octal or binary digits behind `0x`, `0o` or
`0b`. -/
def radixNat? (t : Text) : Option Nat :=
  match t with
  | '0' :: 'x' :: r => Text.toNatBase? 16 r
  | '0' :: 'o' :: r => Text.toNatBase? 8 r
  | '0' :: 'b' :: r => Text.toNatBase? 2 r
  | _ => none

/-- The integer that a plain scalar spells, of any size. -/
def integer? (t : Text) : Option Int :=
  let magnitude? (digits : Text) : Option Nat :=
    (radixNat? digits).orElse fun _ => if hasLeadingZero t then none else Text.toNat? digits
  match t with
  | '-' :: r => (magnitude? r).map fun n => -(n : Int)
  | '+' :: r => (magnitude? r).map fun n => (n : Int)
  | r => (magnitude? r).map fun n => (n : Int)

/-- The number that a plain scalar spells with a point, an exponent or a special
word. -/
def float? (t : Text) : Option Binary64 :=
  let bare : Text :=
    match t with
    | '+' :: r => r
    | r => r
  let twoSigns : Bool :=
    match t with
    | '+' :: '+' :: _ | '+' :: '-' :: _ => true
    | _ => false
  if twoSigns then none
  else if [".inf", ".Inf", ".INF"].any (·.toList == bare) then some (.infinite false)
  else if ["-.inf", "-.Inf", "-.INF"].any (·.toList == t) then some (.infinite true)
  else if [".nan", ".NaN", ".NAN"].any (·.toList == t) then some .nan
  else (Decimal.signed? bare).bind fun x => if x.isFinite then some x else none

def isNull (t : Text) : Bool :=
  ["null", "Null", "NULL", "~"].any (·.toList == t)

def bool? (t : Text) : Option Bool :=
  if ["true", "True", "TRUE"].any (·.toList == t) then some true
  else if ["false", "False", "FALSE"].any (·.toList == t) then some false
  else none

/-- An integer as a value.  One that is too big for a value is an error as long
as it fits 128 bits; a bigger one is none at all. -/
def ofInteger? (t : Text) : Option (Except Error Value) :=
  (integer? t).bind fun i =>
    if leastInt ≤ i ∧ i ≤ greatestInt then some (.ok (int i))
    else if -Int.pow 2 127 ≤ i ∧ i < Int.pow 2 128 then some (.error (.numberOutOfRange t))
    else none

def ofPlain (t : Text) : Except Error Value :=
  if t.isEmpty || isNull t then .ok null
  else
    match bool? t with
    | some b => .ok (bool b)
    | none =>
      match ofInteger? t with
      | some r => r
      | none =>
        match if hasLeadingZero t then none else float? t with
        | some x => .ok (float x)
        | none => .ok (str t)

/-! ## Tags -/

/-- The tag of a standard type. -/
def standardTag (type : String) : Text :=
  "tag:yaml.org,2002:".toList ++ type.toList

/-- A scalar with a tag that does not begin with an exclamation mark.  The tags
of the standard types demand their spelling; all others make a string. -/
def ofTagged (tag t : Text) : Except Error Value :=
  let orFail (v? : Option Value) (expected : String) : Except Error Value :=
    match v? with
    | some v => .ok v
    | none => .error (.badTaggedScalar t expected.toList)
  if tag = standardTag "bool" then orFail ((bool? t).map bool) "a boolean"
  else if tag = standardTag "int" then
    match ofInteger? t with
    | some r => r
    | none => orFail none "an integer"
  else if tag = standardTag "float" then orFail ((float? t).map float) "a float"
  else if tag = standardTag "null" then orFail (if isNull t then some null else none) "null"
  else .ok (str t)

/-- A tag without the exclamation mark at its start, unless it is nothing
else. -/
def unmarked (tag : Text) : Text :=
  match tag with
  | '!' :: c :: r => c :: r
  | r => r

/-- The name of a tag of the document's own, which begins with an exclamation
mark. -/
def localTag? (tag : Option Text) : Option Text :=
  match tag with
  | some ('!' :: r) => some (unmarked (unmarked ('!' :: r)))
  | _ => none

/-! ## Equality of keys -/

mutual

def depth : Value → Nat
  | seq items => depthItems items + 1
  | map entries => depthEntries entries + 1
  | tagged _ v => depth v + 1
  | _ => 0

def depthItems : List Value → Nat
  | [] => 0
  | v :: vs => max (depth v) (depthItems vs)

def depthEntries : List (Value × Value) → Nat
  | [] => 0
  | (k, v) :: es => max (max (depth k) (depth v)) (depthEntries es)

end

/-- Equality of values down to a depth.  The order of the entries of a mapping
does not count. -/
def agreeTo : Nat → Value → Value → Bool
  | _, null, null => true
  | _, bool a, bool b => a == b
  | _, int a, int b => a == b
  | _, float a, float b => a.sameNumber b
  | _, str a, str b => a == b
  | n + 1, seq as, seq bs => as.length == bs.length && (as.zip bs).all fun (a, b) => agreeTo n a b
  | n + 1, map as, map bs =>
    as.length == bs.length &&
      as.all fun (k, v) => bs.any fun (k', v') => agreeTo n k k' && agreeTo n v v'
  | n + 1, tagged s a, tagged t b => s == t && agreeTo n a b
  | _, _, _ => false

/-- Equality of values. -/
def agree (a b : Value) : Bool :=
  agreeTo a.depth a b

/-! ## The value of a document -/

/-- The entries of a mapping, unless two of them have one key. -/
def ofEntries (entries : List (Value × Value)) : Except Error Value :=
  let rec distinct : List (Value × Value) → Bool
    | [] => true
    | (k, _) :: es => !es.any (fun e => agree k e.1) && distinct es
  if distinct entries then .ok (map entries) else .error .duplicateKey

/-- What aliases refer to, and how often they may be followed. -/
structure Anchors where
  nodes : List (Nat × Node)
  limit : Nat
  deriving Repr

namespace Anchors

/-- The node of an anchor; of several the last one answers. -/
def node? (a : Anchors) (n : Nat) : Option Node :=
  a.nodes.foldl (fun found e => if e.1 = n then some e.2 else found) none

/-- A node itself, or what an alias refers to; following an alias is counted. -/
def follow (a : Anchors) (n : Node) : StateT Nat (Except Error) (Option Node) := do
  match n with
  | .aliasTo anchor =>
    modify (· + 1)
    if a.limit < (← get) then throw .tooManyAliases
    return a.node? anchor
  | _ => return none

end Anchors

/-- The value of a scalar.  A tag that was read already does not count. -/
def ofScalar (tagRead : Bool) (tag : Option Text) (bare : Bool) (t : Text) :
    Except Error Value :=
  match tag, tagRead with
  | some tag, false => ofTagged tag t
  | _, _ => if bare then ofPlain t else .ok (str t)

/-- The value of a node with at most `remaining` levels of collections.  The tag
of the node does not count when it was read already, and neither do the tags of
the keys in it. -/
def ofNode (anchors : Anchors) : (remaining : Nat) → (tagRead : Bool) → Node →
    StateT Nat (Except Error) Value
  | remaining, tagRead, n => do
    let followed ← anchors.follow n
    let tagRead := tagRead && followed.isNone
    match followed.getD n with
    | .aliasTo _ => throw .tooDeep
    | .scalar p bare t =>
      match localTag? p.tag, tagRead with
      | some name, false => return tagged name (← ofScalar true p.tag bare t)
      | _, _ => ofScalar tagRead p.tag bare t
    | .sequence p items =>
      match remaining with
      | 0 => throw .tooDeep
      | left + 1 =>
        let v := seq (← items.mapM (ofNode anchors left false))
        match localTag? p.tag, tagRead with
        | some name, false => return tagged name v
        | _, _ => return v
    | .mapping p entries =>
      match remaining with
      | 0 => throw .tooDeep
      | left + 1 =>
        let inside := tagRead || (localTag? p.tag).isSome
        let v ← ofEntries (← entries.mapM fun (k, v) => do
          return (← ofNode anchors left inside k, ← ofNode anchors left false v))
        match localTag? p.tag, tagRead with
        | some name, false => return tagged name v
        | _, _ => return v

/-- How deep collections may be nested. -/
def nestingLimit : Nat := 128

def ofText (t : Text) : Except Error Value := do
  let document ← Node.ofText t
  let anchors : Anchors := ⟨document.root.anchored, 100 * document.events⟩
  let (v, _) ← (ofNode anchors nestingLimit false document.root).run 0
  return v

end Value

end Marginalia.Yaml
