import Marginalia.Yaml.Token.Scan

/-!
# Nodes

The nodes of a document as they are written: scalars, sequences, mappings, and
aliases that point back at a node with an anchor.  `Node.ofText` reads the one
document of a text.

Anchors are numbered.  The number of a new anchor is the count of the anchor
names so far; a name that comes a second time therefore gets a number that the
next new name gets again, and of several nodes with one number the last one
answers.
-/

namespace Marginalia.Yaml

/-- The properties written before a node. -/
structure Properties where
  anchor : Option Nat
  tag : Option Text
  deriving DecidableEq, Repr

inductive Node where
  | aliasTo (anchor : Nat)
  | scalar (properties : Properties) (bare : Bool) (text : Text)
  | sequence (properties : Properties) (items : List Node)
  | mapping (properties : Properties) (entries : List (Node × Node))
  deriving Repr

namespace Node

/-- The node that stands where nothing is written. -/
def absent : Node :=
  scalar ⟨none, none⟩ true []

/-- A place among the tokens of a document. -/
structure Reader where
  tokens : List Token
  /-- The number of each anchor name. -/
  anchors : List (Text × Nat)
  /-- What each tag handle stands for. -/
  handles : List (Text × Text)
  /-- The number of scalars, aliases and ends of collections read so far. -/
  events : Nat
  deriving DecidableEq, Repr

/-- A step of the reading of nodes. -/
abbrev Read := StateT Reader (Except Error)

namespace Read

def peek : Read (Option Token) := do
  return (← get).tokens.head?

def skip : Read Unit :=
  modify fun r => { r with tokens := r.tokens.tail }

def count (n : Nat) : Read Unit :=
  modify fun r => { r with events := r.events + n }

/-- Stops for want of an expected token. -/
def fail {α : Type} (expected : String) : Read α :=
  throw (.unexpectedToken expected.toList)

def anchorNumber (name : Text) : Read Nat := do
  match (← get).anchors.lookup name with
  | some n => return n
  | none => throw (.unknownAnchor name)

def newAnchor (name : Text) : Read Nat := do
  let anchors := (← get).anchors
  let n := anchors.length
  modify fun r => { r with anchors := (name, n) :: anchors.filter (·.1 != name) }
  return n

def resolveTag (handle suffix : Text) : Read Text := do
  if handle.isEmpty then return suffix
  match (← get).handles.lookup handle with
  | some lead => return lead ++ suffix
  | none => throw (.unknownHandle handle)

/-- The anchor and the tag before a node, each at most once and in either
order. -/
def properties : Read Properties := do
  match ← peek with
  | some (.anchor name) =>
    skip
    match ← peek with
    | some (.tag handle suffix) =>
      skip
      let tag ← resolveTag handle suffix
      return ⟨some (← newAnchor name), some tag⟩
    | _ => return ⟨some (← newAnchor name), none⟩
  | some (.tag handle suffix) =>
    skip
    match ← peek with
    | some (.anchor name) =>
      skip
      let tag ← resolveTag handle suffix
      return ⟨some (← newAnchor name), some tag⟩
    | _ => return ⟨none, some (← resolveTag handle suffix)⟩
  | _ => return ⟨none, none⟩

/-- The node that stands where nothing is written, counted as a scalar. -/
def absentNode : Read Node := do
  count 1
  return absent

end Read

/-- Whether a token ends the key or the value of a block mapping. -/
def endsBlockEntry : Option Token → Bool
  | some .key | some .value | some .blockEnd => true
  | _ => false

open Read in
mutual

/-- One node.  Block collections are allowed where `block` holds, and a sequence
of dashes without an indentation of its own where `indentless` holds. -/
def read (block indentless : Bool) : Nat → Read Node
  | 0 => throw .tooDeep
  | fuel + 1 => do
    match ← peek with
    | some (.aliasTo name) =>
      skip
      count 1
      return .aliasTo (← anchorNumber name)
    | _ => pure ()
    let p ← properties
    match ← peek with
    | some (.scalar bare text) =>
      skip
      count 1
      -- the tag of one exclamation mark leaves the scalar without a tag
      if p.tag = some ['!'] then return .scalar { p with tag := none } bare text
      return .scalar p bare text
    | some .flowSequenceStart =>
      skip
      count 2
      return .sequence p (← readFlowItems true fuel)
    | some .flowMappingStart =>
      skip
      count 2
      return .mapping p (← readFlowEntries true fuel)
    | some .blockSequenceStart =>
      if !block then fail "node content"
      skip
      count 2
      return .sequence p (← readBlockItems fuel)
    | some .blockMappingStart =>
      if !block then fail "node content"
      skip
      count 2
      return .mapping p (← readBlockEntries fuel)
    | some .blockEntry =>
      if indentless then
        count 2
        return .sequence p (← readIndentlessItems fuel)
      else if p.anchor.isSome || p.tag.isSome then
        count 1
        return .scalar p true []
      else fail "node content"
    | _ =>
      if p.anchor.isSome || p.tag.isSome then
        count 1
        return .scalar p true []
      else fail "node content"

def readBlockItems : Nat → Read (List Node)
  | 0 => throw .tooDeep
  | fuel + 1 => do
    match ← peek with
    | some .blockEntry =>
      skip
      let item ←
        match ← peek with
        | some .blockEntry | some .blockEnd => absentNode
        | _ => read true false fuel
      return item :: (← readBlockItems fuel)
    | some .blockEnd =>
      skip
      return []
    | _ => fail "'-' indicator"

/-- The items of a sequence that stands at the indentation of its key. -/
def readIndentlessItems : Nat → Read (List Node)
  | 0 => throw .tooDeep
  | fuel + 1 => do
    match ← peek with
    | some .blockEntry =>
      skip
      let next ← peek
      let item ←
        if next = some .blockEntry || endsBlockEntry next then absentNode
        else read true false fuel
      return item :: (← readIndentlessItems fuel)
    | _ => return []

def readBlockEntries : Nat → Read (List (Node × Node))
  | 0 => throw .tooDeep
  | fuel + 1 => do
    match ← peek with
    | some .key =>
      skip
      let key ← if endsBlockEntry (← peek) then absentNode else read true true fuel
      let value ←
        match ← peek with
        | some .value =>
          skip
          if endsBlockEntry (← peek) then absentNode else read true true fuel
        | _ => absentNode
      return (key, value) :: (← readBlockEntries fuel)
    | some .blockEnd =>
      skip
      return []
    | _ => fail "key"

/-- The items of a flow sequence; each but the first one has a comma before
it. -/
def readFlowItems (first : Bool) : Nat → Read (List Node)
  | 0 => throw .tooDeep
  | fuel + 1 => do
    if (← peek) = some .flowSequenceEnd then
      skip
      return []
    if !first then
      if (← peek) ≠ some .flowEntry then fail "',' or ']'"
      skip
    match ← peek with
    | some .flowSequenceEnd =>
      skip
      return []
    | some .key =>
      skip
      count 2
      let entry ← readFlowPair fuel
      return .mapping ⟨none, none⟩ [entry] :: (← readFlowItems false fuel)
    | _ =>
      let item ← read false false fuel
      return item :: (← readFlowItems false fuel)

/-- The one entry of a mapping that is written without braces in a flow
sequence.  Without a key the token behind the question mark is dropped. -/
def readFlowPair : Nat → Read (Node × Node)
  | 0 => throw .tooDeep
  | fuel + 1 => do
    let key ←
      match ← peek with
      | some .value | some .flowEntry | some .flowSequenceEnd =>
        skip
        absentNode
      | _ => read false false fuel
    match ← peek with
    | some .value =>
      skip
      match ← peek with
      | some .flowEntry | some .flowSequenceEnd => return (key, ← absentNode)
      | _ => return (key, ← read false false fuel)
    | _ => return (key, ← absentNode)

/-- The entries of a flow mapping; each but the first one has a comma before
it. -/
def readFlowEntries (first : Bool) : Nat → Read (List (Node × Node))
  | 0 => throw .tooDeep
  | fuel + 1 => do
    if (← peek) = some .flowMappingEnd then
      skip
      return []
    if !first then
      if (← peek) ≠ some .flowEntry then fail "',' or a closing brace"
      skip
    match ← peek with
    | some .flowMappingEnd =>
      skip
      return []
    | some .key =>
      skip
      let key ←
        match ← peek with
        | some .value | some .flowEntry | some .flowMappingEnd => absentNode
        | _ => read false false fuel
      let value ←
        match ← peek with
        | some .value =>
          skip
          match ← peek with
          | some .flowEntry | some .flowMappingEnd => absentNode
          | _ => read false false fuel
        | _ => absentNode
      return (key, value) :: (← readFlowEntries false fuel)
    | _ =>
      let key ← read false false fuel
      let value ← absentNode
      return (key, value) :: (← readFlowEntries false fuel)

end

/-- The handles that every document has, unless it gives them another
meaning. -/
def defaultHandles : List (Text × Text) :=
  [(['!'], ['!']), (['!', '!'], "tag:yaml.org,2002:".toList)]

/-- The directives before a document: at most one version, which is 1.1 or 1.2,
and a meaning for each handle. -/
def readDirectives (versioned : Bool) (handles : List (Text × Text)) :
    List Token → Except Error (List (Text × Text) × List Token)
  | .versionDirective major minor :: rest =>
    if versioned || major ≠ 1 || (minor ≠ 1 && minor ≠ 2) then .error .badDirective
    else readDirectives true handles rest
  | .tagDirective handle lead :: rest =>
    if handles.any (·.1 == handle) then .error .badDirective
    else readDirectives versioned (handles ++ [(handle, lead)]) rest
  | rest => .ok (handles, rest)

/-- A document that was read: its root and the number of its events. -/
structure Document where
  root : Node
  events : Nat
  deriving Repr

/-- The node at the start of `tokens`, and the tokens behind it. -/
def readRoot (handles : List (Text × Text)) (tokens : List Token) :
    Except Error (Document × List Token) := do
  let (root, r) ← (read true false (3 * tokens.length + 3)).run ⟨tokens, [], handles, 0⟩
  return (⟨root, r.events⟩, r.tokens)

/-- The document at the start of `tokens`, and the tokens behind it. -/
def readDocument (tokens : List Token) : Except Error (Document × List Token) :=
  match tokens with
  | [] => .ok (⟨absent, 1⟩, [])
  | .versionDirective .. :: _ | .tagDirective .. :: _ | .documentStart :: _ => do
    let (handles, rest) ← readDirectives false [] tokens
    match rest with
    | .documentStart :: content =>
      match content with
      | [] | .versionDirective .. :: _ | .tagDirective .. :: _ | .documentStart :: _
      | .documentEnd :: _ => return (⟨absent, 1⟩, content)
      | _ => readRoot (handles ++ defaultHandles) content
    | _ => throw (.unexpectedToken "<document start>".toList)
  | _ => readRoot defaultHandles tokens

/-- The document of a text that holds at most one. -/
def ofText (t : Text) : Except Error Document := do
  let (document, rest) ← readDocument (← Token.ofText t)
  if (rest.dropWhile (· == .documentEnd)).isEmpty then return document
  throw .severalDocuments

mutual

/-- The nodes with an anchor, each before the nodes inside it. -/
def anchored : Node → List (Nat × Node)
  | .aliasTo _ => []
  | .scalar p bare text => (p.anchor.map (·, Node.scalar p bare text)).toList
  | .sequence p items => (p.anchor.map (·, Node.sequence p items)).toList ++ anchoredItems items
  | .mapping p entries =>
    (p.anchor.map (·, Node.mapping p entries)).toList ++ anchoredEntries entries

def anchoredItems : List Node → List (Nat × Node)
  | [] => []
  | n :: ns => anchored n ++ anchoredItems ns

def anchoredEntries : List (Node × Node) → List (Nat × Node)
  | [] => []
  | (k, v) :: es => anchored k ++ (anchored v ++ anchoredEntries es)

end

end Node

end Marginalia.Yaml
