import Marginalia.Proofs.Yaml.ItemList

/-!
# Blocks that are read back

A block below its key is a list of items or the entries of a mapping.
`ReadBlock` is such a block in writing with what the reader makes of it in the
place of a value, and a block without lines is an empty collection in flow style
behind the key.
-/

namespace Marginalia.Yaml

open Source (hang isInline)

namespace BodyKind

/-- The character that opens a collection in flow style. -/
def opening : BodyKind → Char
  | sequence => '['
  | mapping => '\x7b'

/-- A collection without entries, in flow style. -/
def empty : BodyKind → Text
  | sequence => ['[', ']']
  | mapping => ['\x7b', '\x7d']

def emptyTokens : BodyKind → List Token
  | sequence => [.flowSequenceStart, .flowSequenceEnd]
  | mapping => [.flowMappingStart, .flowMappingEnd]

def emptyNode : BodyKind → Node
  | sequence => Node.listNode []
  | mapping => Node.plainMapping []

/-- Below a key at the column `indent` a block may stand at the column `width`.
Only the items of a list may stand at the column of the key. -/
def Admits : BodyKind → Nat → Nat → Prop
  | sequence, indent, width => indent ≤ width
  | mapping, indent, width => indent < width

end BodyKind

/-! ## Tokens -/

namespace Scan

variable {line column i : Nat} {is : List Nat} {allowed : Bool} {before : List Token} {tail : Text}

/-- The reader takes a block, written on some lines below its key, for some
tokens, which depend on whether it stands deeper than the key. -/
def TakesBlock (kind : BodyKind) (lines : List Text) (tokens : Bool → List Token) : Prop :=
  ∀ (i width : Nat) (is : List Nat) (allowed : Bool) (tail : Text) (line column : Nat)
    (before : List Token), kind.Admits i width → Follows i tail → ∃ line' column',
      (inBlock ⟨hang width lines tail, line, column⟩ (i :: is) allowed before).finish =
        (inBlock ⟨tail, line', column'⟩ (i :: is) false
          ((tokens (decide (i < width))).reverse ++ before)).finish

theorem takesBlock_items {rs : List ReadItem} (hne : rs ≠ []) :
    TakesBlock .sequence (itemLines rs) (listTokens · rs) :=
  fun _ _ _ allowed _ line column before hi htail =>
    exists_finish_list hne hi htail line column allowed before

theorem takesBlock_entries (e : ReadEntry) (es : List ReadEntry) :
    TakesBlock .mapping (entryLines (e :: es)) fun _ => mappingTokens (e :: es) := by
  intro i width is allowed tail line column before hlt htail
  obtain ⟨c, r, hline, hc, hsign⟩ := e.begins
  obtain ⟨line', column', hmapping⟩ :=
    @exists_finish_mapping i width is tail e es hlt htail (line + 1) before
  refine ⟨line', column', ?_⟩
  rw [← hmapping, entryLines, List.map_cons, Source.hang_cons, ← entryLines, hline,
    List.cons_append, finish_indented hc hsign (Nat.ne_zero_of_lt hlt)]

theorem finish_empty (kind : BodyKind) (hi : i < column)
    (hover : line < (skipGap false false false line (column + 2) tail).1.line ∨
      (skipGap false false false line (column + 2) tail).1.rest = []) :
    (inBlock ⟨kind.empty ++ tail, line, column⟩ (i :: is) allowed before).finish =
      (inBlock ⟨tail, line, column + 2⟩ (i :: is) false
        (kind.emptyTokens.reverse ++ before)).finish := by
  have hcolumn : column ≠ 0 := Nat.ne_zero_of_lt hi
  cases kind with
  | sequence =>
      exact finish_emptyFlow dispatch_openSequence dispatch_closeSequence (by decide) (by decide)
        (by decide) (by decide) hcolumn hi hover
  | mapping =>
      exact finish_emptyFlow dispatch_openMapping dispatch_closeMapping (by decide) (by decide)
        (by decide) (by decide) hcolumn hi hover

end Scan

/-! ## Nodes -/

namespace Node

variable {rest : List Token}

theorem isValue_mapping (es : List ReadEntry) (rest : List Token) :
    IsValue (plainMapping (es.map ReadEntry.node)) (2 + 2 * es.length) (mappingTokens es) rest := by
  intro fuel r hfuel hr
  have hmapping : r.tokens =
      .blockMappingStart :: (es.flatMap ReadEntry.tokens ++ .blockEnd :: rest) := by
    rw [hr]
    simp [mappingTokens]
  rw [run_blockNode_of_mapping hmapping]
  exact run_read_mappingTokens es fuel r hfuel hr

/-- A list without items, or a mapping without entries. -/
theorem isValue_emptyTokens (kind : BodyKind) (rest : List Token) :
    IsValue kind.emptyNode 2 kind.emptyTokens rest := by
  rintro fuel ⟨_, anchors, handles, events⟩ hfuel rfl
  have hlength : kind.emptyTokens.length = 2 := by cases kind <;> rfl
  obtain ⟨fuel, rfl⟩ : ∃ n, fuel = n + 2 := Nat.exists_eq_add_of_le' (by omega)
  rw [run_blockNode_of_not_ends (by cases kind <;> rfl)]
  unfold read
  cases kind <;> rfl

end Node

/-! ## Blocks in writing -/

/-- A block in writing with what the reader makes of it in the place of a
value. -/
structure ReadBlock (kind : BodyKind) where
  lines : List Text
  /-- The tokens of the lines, when they stand deeper than the key and when they
  do not. -/
  tokens : Bool → List Token
  node : Node
  /-- The number of events of the node. -/
  size : Nat
  value : Value
  taken : lines ≠ [] → Scan.TakesBlock kind lines tokens
  isValue : ∀ deeper rest, Node.endsBlockEntry rest.head? = true →
    Node.IsValue node size (if lines.isEmpty then kind.emptyTokens else tokens deeper) rest
  anchored : node.anchored = []
  /-- The number of levels of collections. -/
  levels : Nat
  means : Value.Means node levels value
  inline : ∀ l ∈ lines, ∀ c ∈ l, isInline c = true

namespace ReadBlock

/-- The tokens of a block, which may be empty. -/
def written {kind : BodyKind} (b : ReadBlock kind) (deeper : Bool) : List Token :=
  if b.lines.isEmpty then kind.emptyTokens else b.tokens deeper

def ofItems (rs : List ReadItem) (levels : Nat)
    (hlevels : ∀ r ∈ rs, Value.Means r.node levels r.value) : ReadBlock .sequence where
  lines := itemLines rs
  tokens := (listTokens · rs)
  node := Node.listNode rs
  size := 2 + Node.itemsSize rs
  value := .seq (rs.map ReadItem.value)
  taken hne := Scan.takesBlock_items fun hnil => hne (by rw [hnil]; rfl)
  isValue deeper rest hrest := by
    cases rs with
    | nil => exact Node.isValue_emptyTokens .sequence rest
    | cons r rs =>
        have hne : (itemLines (r :: rs)).isEmpty = false := by
          simpa using itemLines_ne_nil (List.cons_ne_nil r rs)
        rw [hne]
        exact Node.isValue_list (List.cons_ne_nil r rs) deeper hrest
  anchored := Node.anchored_listNode rs
  levels := levels + 1
  means := Value.means_listNode hlevels
  inline l hl := by
    obtain ⟨r, -, hr⟩ := List.mem_flatMap.mp hl
    exact r.inline l hr

def ofEntries (es : List ReadEntry) (hdistinct : (es.map (·.key.name)).Nodup) :
    ReadBlock .mapping where
  lines := entryLines es
  tokens _ := mappingTokens es
  node := Node.plainMapping (es.map ReadEntry.node)
  size := 2 + 2 * es.length
  value := .map (es.map ReadEntry.value)
  taken hne := by
    cases es with
    | nil => exact absurd rfl hne
    | cons e es => exact Scan.takesBlock_entries e es
  isValue deeper rest _ := by
    cases es with
    | nil => exact Node.isValue_emptyTokens .mapping rest
    | cons e es => exact Node.isValue_mapping (e :: es) rest
  anchored := Node.anchored_entries es
  levels := 1
  means := Value.means_entries hdistinct
  inline l hl := by
    obtain ⟨e, -, rfl⟩ := List.mem_map.mp hl
    exact e.isInline_line

end ReadBlock

end Marginalia.Yaml
