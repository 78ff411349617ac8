import Marginalia.Proofs.Yaml.Blocks
import Marginalia.Proofs.Yaml.Located
import Marginalia.Proofs.Yaml.NotedLine
import Marginalia.Proofs.Yaml.TwoBlocks
import Marginalia.Yaml.Lookup
import Mathlib.Data.List.Nodup

/-!
# Notes that go with their names

A reorder writes the entries of an order list and of its flags in another order,
each behind the name that the reader has for it, with the note that the patcher
has for that name.  An entry keeps its note where its name stands in the old
line as it is, bare or between quotes, and only there: a name that is spelled
with an escape or with a quote written twice, for one, loses it.
-/

namespace Marginalia.Yaml.Patch

open Source (endsLine)

theorem endsLine_of_any {t : Text} (h : t.any endsLine = false) : ∀ c ∈ t, endsLine c = false := by
  simpa using h

/-- The patcher takes the line of an entry for a name. -/
def EntryLine.TakenFor {kind : BodyKind} {indent : Nat} (x : EntryLine kind indent) (name : Text) :
    Prop :=
  ∃ comment, note? kind indent (.ofLine x.line) = some (name, comment)

/-- A block with one entry on each of its content lines. -/
structure NotedBlock (t : Text) (stop : Nat) (kind : BodyKind) extends FilledBlock t stop kind where
  entries : List (EntryLine kind body.indent)
  lines : (bodyLines (Outline.ofText t) body).filter OutlineLine.isContent =
    entries.map fun x => .ofLine x.line
  /-- The line of the key leaves room for a block. -/
  room : admitsBlock kind.opening key = true

namespace NotedBlock

variable {t : Text} {stop : Nat} {kind : BodyKind} (b : NotedBlock t stop kind)

/-- The comment that the patcher has for a name. -/
def noteFor (name : Text) : Text :=
  noteOf (notes kind (Outline.ofText t) b.body) name

theorem mem_notes_iff {e : Text × Text} : e ∈ notes kind (Outline.ofText t) b.body ↔
    ∃ x ∈ b.entries, note? kind b.body.indent (.ofLine x.line) = some e := by
  have hmem : ∀ l, l ∈ (bodyLines (Outline.ofText t) b.body).filter OutlineLine.isContent ↔
      ∃ x ∈ b.entries, OutlineLine.ofLine x.line = l := by
    intro l
    rw [b.lines, List.mem_map]
  constructor
  · intro he
    obtain ⟨l, hl, hcontent, hnote⟩ := exists_line_of_mem_notes he
    obtain ⟨x, hx, rfl⟩ := (hmem l).mp (List.mem_filter.mpr ⟨hl, hcontent⟩)
    exact ⟨x, hx, hnote⟩
  · rintro ⟨x, hx, hnote⟩
    have hl := (hmem _).mpr ⟨x, hx, rfl⟩
    exact List.mem_filterMap.mpr ⟨_, (List.mem_filter.mp hl).1, hnote⟩

/-- An entry whose name no other line is taken for keeps its note when its name
stands as it is, and otherwise only if it has none. -/
theorem noteFor_eq_iff {x : EntryLine kind b.body.indent} (hx : x ∈ b.entries)
    (halone : ∀ y ∈ b.entries, y.TakenFor x.name → y = x) :
    b.noteFor x.name = x.note ↔ x.note = [] ∨ Stands x.name kind x.token := by
  have hself : ∀ e ∈ notes kind (Outline.ofText t) b.body, e.1 = x.name →
      note? kind b.body.indent (.ofLine x.line) = some (x.name, e.2) := by
    rintro ⟨name, comment⟩ he rfl
    obtain ⟨y, hy, hnote⟩ := b.mem_notes_iff.mp he
    obtain rfl := halone y hy ⟨comment, hnote⟩
    exact hnote
  have hcases := noteOf_cases (notes kind (Outline.ofText t) b.body) x.name
  rw [noteFor]
  constructor
  · intro hkept
    by_cases hsome : x.note = []
    · exact Or.inl hsome
    · rw [hkept] at hcases
      obtain ⟨e, he, hname, hnote⟩ := hcases.resolve_right fun hnone => hsome hnone.2
      exact Or.inr ((x.of_note?_eq_some (hself e he hname)).2 hsome hnote.symm)
  · rintro (hnone | hstands)
    · rcases hcases with ⟨e, he, hname, hnote⟩ | ⟨-, hnote⟩
      · rw [hnote, hnone]
        exact (x.of_note?_eq_some (hself e he hname)).1 hnone
      · rw [hnote, hnone]
    · have hfound := x.note?_of_stands hstands
      rcases hcases with ⟨e, he, hname, hnote⟩ | ⟨hother, -⟩
      · rw [hself e he hname] at hfound
        rw [hnote]
        exact (Prod.mk.inj (Option.some.inj hfound)).2
      · exact absurd rfl (hother _ (b.mem_notes_iff.mpr ⟨x, hx, hfound⟩))

/-- Where all names stand as they are, and no name comes twice, every note is
kept. -/
theorem noteFor_eq_of_stands (hstands : ∀ x ∈ b.entries, Stands x.name kind x.token)
    (hdistinct : (b.entries.map EntryLine.name).Nodup) :
    ∀ x ∈ b.entries, b.noteFor x.name = x.note := by
  intro x hx
  refine (b.noteFor_eq_iff hx ?_).mpr (Or.inr (hstands x hx))
  rintro y hy ⟨comment, hnote⟩
  rw [y.note?_of_stands (hstands y hy)] at hnote
  exact List.inj_on_of_nodup_map hdistinct hy hx (Prod.mk.inj (Option.some.inj hnote)).1

/-- The notes of a block go with the names that stand in it as they are. -/
structure Keeps : Prop where
  /-- An entry for whose name no other line is taken. -/
  note_iff : ∀ x ∈ b.entries, (∀ y ∈ b.entries, y.TakenFor x.name → y = x) →
    (b.noteFor x.name = x.note ↔ x.note = [] ∨ Stands x.name kind x.token)
  /-- All entries, where each of them stands as it is. -/
  all : (∀ x ∈ b.entries, Stands x.name kind x.token) → (b.entries.map EntryLine.name).Nodup →
    ∀ x ∈ b.entries, b.noteFor x.name = x.note
  /-- A name for which no line is taken. -/
  none : ∀ name, (∀ x ∈ b.entries, ¬x.TakenFor name) → b.noteFor name = []

theorem keeps : b.Keeps where
  note_iff _ hx halone := b.noteFor_eq_iff hx halone
  all := b.noteFor_eq_of_stands
  none name hnone := by
    rcases noteOf_cases (notes kind (Outline.ofText t) b.body) name with
      ⟨⟨_, comment⟩, he, rfl, -⟩ | ⟨-, hnote⟩
    · obtain ⟨x, hx, hfound⟩ := b.mem_notes_iff.mp he
      exact absurd ⟨comment, hfound⟩ (hnone x hx)
    · exact hnote

theorem endsLine_of_mem_noteFor (name : Text) : ∀ c ∈ b.noteFor name, endsLine c = false := by
  rcases noteOf_cases (notes kind (Outline.ofText t) b.body) name with
    ⟨e, he, -, hnote⟩ | ⟨-, hnone⟩
  · obtain ⟨x, -, hx⟩ := b.mem_notes_iff.mp he
    intro c hc
    rw [noteFor, hnote] at hc
    exact x.inline c (subset_of_note?_eq_some hx hc)
  · simp [noteFor, hnone]

theorem isLine_append_noteFor {written : Text} (hne : written ≠ [])
    (hwritten : Text.NoControl written) (name : Text) :
    written ++ b.noteFor name ≠ [] ∧ Text.IsLine (written ++ b.noteFor name) := by
  have hnote := b.endsLine_of_mem_noteFor name
  have hnot : ∀ d, CharClass.isControl d = true → endsLine d = true →
      d ∉ written ++ b.noteFor name := by
    intro d hcontrol hends hmem
    rcases List.mem_append.mp hmem with hmem | hmem
    · exact Bool.false_ne_true ((hwritten d hmem).symm.trans hcontrol)
    · exact Bool.false_ne_true ((hnote d hmem).symm.trans hends)
  exact ⟨by simp [hne], hnot '\n' (by decide) (by decide),
    fun hcr => hnot '\r' (by decide) (by decide) (List.mem_of_getLast? hcr)⟩

theorem entries_ne_nil : b.entries ≠ [] := by
  intro hnil
  have hlines := b.lines
  have hfilled := b.filled
  obtain ⟨l, hl, hcontent⟩ : ∃ l, (Outline.ofText t)[b.body.lines.start]? = some l ∧
      l.isContent = true := by
    have hfirst := Outline.exists_isContent_of_body (Outline.ofText t) b.index stop kind
    rw [b.found] at hfirst
    exact hfirst hfilled
  rw [hnil, List.map_nil, List.filter_eq_nil_iff] at hlines
  refine hlines l ?_ hcontent
  have hget : (bodyLines (Outline.ofText t) b.body)[0]? = some l := by
    rw [bodyLines, List.getElem?_drop, List.getElem?_take, if_pos (by omega), Nat.add_zero, hl]
  exact List.mem_of_getElem? hget

end NotedBlock

/-- An order list and the flags beside it: two blocks, neither of them inside
the other, in which the reader has an entry for each line, with the name that is
spelled there. -/
structure NotedEnum (t module orderPath mapPath : Text) (root : Value) where
  range : LineRange
  order : NotedBlock t range.stop .sequence
  flags : NotedBlock t range.stop .mapping
  orderLocated : (Outline.ofText t).locate module orderPath = .ok (range, order.index)
  flagsLocated : (Outline.ofText t).locate module mapPath = .ok (range, flags.index)
  apart : order.index ≠ flags.index
  orderOutside : ¬flags.body.lines.Has order.index
  flagsOutside : ¬order.body.lines.Has flags.index
  read : Value.ofText t = .ok root
  orderNames : (root.orderedFlags module orderPath mapPath).map Prod.fst =
    order.entries.map EntryLine.name
  flagNames : (root.lookup module mapPath).map Value.moduleKeys =
    some (flags.entries.map EntryLine.name)

namespace NotedEnum

variable {t module orderPath mapPath : Text} {root : Value}
  (f : NotedEnum t module orderPath mapPath root)

/-- The new lines of the order list: each name with the comment that the patcher
has for it. -/
def orderLines (entries : List (Text × Bool)) : List Text :=
  entries.map fun (name, _) =>
    '-' :: ' ' :: (Scalar.str name).render .plain ++ f.order.noteFor name

def flagLines (entries : List (Text × Bool)) : List Text :=
  entries.map fun (name, enabled) =>
    (Scalar.str name).render .plain ++ [':', ' '] ++ (Scalar.bool enabled).render .plain ++
      f.flags.noteFor name

/-- The lines of the text with the new lines in both blocks, in the order in
which the blocks stand in the old text. -/
def rewritten (entries : List (Text × Bool)) : List (Text × Terminator) :=
  if f.order.index < f.flags.index then
    withBlocks f.order.toFilledBlock f.flags.toFilledBlock (f.orderLines entries)
      (f.flagLines entries)
  else
    withBlocks f.flags.toFilledBlock f.order.toFilledBlock (f.flagLines entries)
      (f.orderLines entries)

theorem reorder_eq_ok (entries : List (Text × Bool)) :
    reorder t module orderPath mapPath entries =
      .ok (f.order.edits (f.orderLines entries) ['[', ']'] ++
        f.flags.edits (f.flagLines entries) ['\x7b', '\x7d']) := by
  obtain ⟨es, hes⟩ := (exists_reorder_eq_ok_iff entries).mpr
    ⟨⟨_, _, _, _, f.orderLocated, keyLine_eq_ok_iff.mpr ⟨f.order.lineAt, f.order.parts⟩,
      by rintro _ ⟨⟩; exact f.order.room⟩,
    _, _, _, _, f.flagsLocated, keyLine_eq_ok_iff.mpr ⟨f.flags.lineAt, f.flags.parts⟩,
      by rintro _ ⟨⟩; exact f.flags.room⟩
  obtain ⟨-, l, k, l', k', hl, hk, hl', hk', rfl⟩ :=
    exists_of_reorder_of_locate hes f.orderLocated f.flagsLocated
  obtain rfl := Option.some.inj (f.order.lineAt.symm.trans hl)
  obtain rfl := Option.some.inj (f.order.parts.symm.trans hk)
  obtain rfl := Option.some.inj (f.flags.lineAt.symm.trans hl')
  obtain rfl := Option.some.inj (f.flags.parts.symm.trans hk')
  rw [hes, f.order.found, f.flags.found]
  rfl

theorem isLine_of_mem_orderLines {entries : List (Text × Bool)} :
    ∀ l ∈ f.orderLines entries, l ≠ [] ∧ Text.IsLine l := by
  intro l hl
  obtain ⟨⟨name, enabled⟩, -, rfl⟩ := List.mem_map.mp hl
  refine f.order.isLine_append_noteFor (List.cons_ne_nil _ _) ?_ name
  intro c hc
  simp only [List.mem_cons] at hc
  rcases hc with rfl | rfl | hc
  · decide
  · decide
  · exact Scalar.noControl_render _ _ c hc

theorem isLine_of_mem_flagLines {entries : List (Text × Bool)} :
    ∀ l ∈ f.flagLines entries, l ≠ [] ∧ Text.IsLine l := by
  intro l hl
  obtain ⟨⟨name, enabled⟩, -, rfl⟩ := List.mem_map.mp hl
  refine f.flags.isLine_append_noteFor (by simp) ?_ name
  intro c hc
  simp only [List.mem_append, List.mem_cons, List.not_mem_nil, or_false] at hc
  rcases hc with (hc | rfl | rfl) | hc
  · exact Scalar.noControl_render _ _ c hc
  · decide
  · decide
  · exact Scalar.noControl_render _ _ c hc

/-- A reorder makes the text with the new lines. -/
theorem exists_lines_eq_rewritten {entries : List (Text × Bool)} (hne : entries ≠ []) :
    ∃ es u, reorder t module orderPath mapPath entries = .ok es ∧
      Edit.applyAll? es t = some u ∧ u.lines.map Line.parts = f.rewritten entries := by
  have horder : f.orderLines entries ≠ [] := by simpa [orderLines] using hne
  have hflags : f.flagLines entries ≠ [] := by simpa [flagLines] using hne
  obtain ⟨u, happly, hlines⟩ : ∃ u,
      Edit.applyAll? (f.order.edits (f.orderLines entries) ['[', ']'] ++
        f.flags.edits (f.flagLines entries) ['\x7b', '\x7d']) t = some u ∧
          u.lines.map Line.parts = f.rewritten entries := by
    rw [rewritten]
    split
    · next hlt =>
        exact exists_lines_eq_withBlocks _ _ (f.order.stop_le_of_lt f.flags.toFilledBlock hlt
          f.flagsOutside) _ _ horder hflags f.isLine_of_mem_orderLines f.isLine_of_mem_flagLines
          (Or.inl rfl)
    · next hge =>
        have hlt : f.flags.index < f.order.index := by
          have hapart := f.apart
          omega
        exact exists_lines_eq_withBlocks _ _ (f.flags.stop_le_of_lt f.order.toFilledBlock hlt
          f.orderOutside) _ _ hflags horder f.isLine_of_mem_flagLines f.isLine_of_mem_orderLines
          (Or.inr rfl)
  exact ⟨_, u, f.reorder_eq_ok entries, happly, hlines⟩

end NotedEnum

/-- A reorder of the entries that the reader finds writes each name with the
note that the patcher has for it, and in both blocks these are the notes of the
names that stand as they are. -/
theorem reorder_keeps_notes_iff_stands {t module orderPath mapPath : Text} {root : Value}
    (f : NotedEnum t module orderPath mapPath root) {entries : List (Text × Bool)}
    (h : entries.Perm (root.orderedFlags module orderPath mapPath)) :
    ∃ es u, reorder t module orderPath mapPath entries = .ok es ∧
      Edit.applyAll? es t = some u ∧ u.lines.map Line.parts = f.rewritten entries ∧
      f.order.Keeps ∧ f.flags.Keeps := by
  have hne : entries ≠ [] := by
    rintro rfl
    have hnames := f.orderNames
    rw [List.nil_perm.mp h, List.map_nil] at hnames
    exact f.order.entries_ne_nil (List.map_eq_nil_iff.mp hnames.symm)
  obtain ⟨es, u, hes, happly, hlines⟩ := f.exists_lines_eq_rewritten hne
  exact ⟨es, u, hes, happly, hlines, f.order.keeps, f.flags.keeps⟩

/-- An order list and its flags, with a name that stands as it is and one with a
quote that is written twice. -/
def spelled : Text :=
  ["m:", "  o:", "    - 'it''s'  # lost", "    - \"a\" # kept", "  f:", "    'it''s': true",
    "    a: false  # kept"].flatMap (·.toList ++ ['\n'])

def spelledItems : List (EntryLine .sequence 4) :=
  [{ line := ⟨2, 8, List.replicate 4 ' ' ++
       '-' :: ([' '] ++ "'it''s'".toList ++ "  # lost".toList), .lf⟩
     name := "it's".toList
     token := "'it''s'".toList
     tail := "  # lost".toList
     note := "  # lost".toList
     spells := .quoted false (n := 8) (by decide +kernel)
     layout := .item (by simp) (by simp)
     isNote := Or.inr ⟨[' ', ' '], " lost".toList, by decide, by decide,
       List.all_eq_true.mp (by decide), endsLine_of_any (by decide)⟩
     trails := Or.inl rfl
     inline := endsLine_of_any (by decide) },
   { line := ⟨3, 30, List.replicate 4 ' ' ++
       '-' :: ([' '] ++ "\"a\"".toList ++ " # kept".toList), .lf⟩
     name := ['a']
     token := "\"a\"".toList
     tail := " # kept".toList
     note := " # kept".toList
     spells := .quoted true (n := 4) (by decide +kernel)
     layout := .item (by simp) (by simp)
     isNote := Or.inr ⟨[' '], " kept".toList, by decide, by decide,
       List.all_eq_true.mp (by decide), endsLine_of_any (by decide)⟩
     trails := Or.inl rfl
     inline := endsLine_of_any (by decide) }]

def spelledFlags : List (EntryLine .mapping 4) :=
  [{ line := ⟨5, 52, List.replicate 4 ' ' ++
       ("'it''s'".toList ++ [] ++ ':' :: (" true".toList ++ [])), .lf⟩
     name := "it's".toList
     token := "'it''s'".toList
     tail := []
     note := []
     spells := .quoted false (n := 8) (by decide +kernel)
     layout := .flag (by simp) (by decide) (Scalar.crosses_bare (by simp) true)
       (by rintro _ ⟨⟩; rfl)
     isNote := Or.inl rfl
     trails := Or.inl rfl
     inline := endsLine_of_any (by decide) },
   { line := ⟨6, 70, List.replicate 4 ' ' ++
       (['a'] ++ [] ++ ':' :: (" false".toList ++ "  # kept".toList)), .lf⟩
     name := ['a']
     token := ['a']
     tail := "  # kept".toList
     note := "  # kept".toList
     spells := .bare (n := 2) rfl (by decide) (by decide +kernel)
     layout := .flag (by simp) (by decide) (Scalar.crosses_bare (by simp) true)
       (by rintro _ ⟨⟩; rfl)
     isNote := Or.inr ⟨[' ', ' '], " kept".toList, by decide, by decide,
       List.all_eq_true.mp (by decide), endsLine_of_any (by decide)⟩
     trails := Or.inl rfl
     inline := endsLine_of_any (by decide) }]

/-- Both blocks as the patcher and the reader find them. -/
theorem exists_notedEnum_spelled : ∃ root : Value,
    Nonempty (NotedEnum spelled ['m'] ['o'] ['f'] root) ∧
      root.orderedFlags ['m'] ['o'] ['f'] = [("it's".toList, true), (['a'], false)] := by
  have hread : (Value.ofText spelled).toOption.map (fun root =>
      (root.orderedFlags ['m'] ['o'] ['f'], (root.lookup ['m'] ['f']).map Value.moduleKeys)) =
        some ([("it's".toList, true), (['a'], false)], some ["it's".toList, ['a']]) := by
    decide +kernel
  obtain ⟨root, hroot⟩ : ∃ root, Value.ofText spelled = .ok root := by
    cases hvalue : Value.ofText spelled with
    | ok root => exact ⟨root, rfl⟩
    | error e =>
        rw [hvalue] at hread
        cases hread
  rw [hroot] at hread
  obtain ⟨hflags, hkeys⟩ := Prod.mk.inj (Option.some.inj hread)
  refine ⟨root, ⟨{
    range := ⟨0, 7⟩
    order := {
      index := 1
      line := ⟨⟨1, 3, "  o:".toList, .lf⟩, 2, .key ['o'] 3⟩
      key := ⟨"  o:".toList, [], [], []⟩
      body := ⟨⟨2, 4⟩, 4⟩
      lineAt := by decide +kernel
      parts := by decide +kernel
      inside := by decide
      found := by decide +kernel
      filled := by decide
      entries := spelledItems
      lines := by decide +kernel
      room := by decide }
    flags := {
      index := 4
      line := ⟨⟨4, 47, "  f:".toList, .lf⟩, 2, .key ['f'] 3⟩
      key := ⟨"  f:".toList, [], [], []⟩
      body := ⟨⟨5, 7⟩, 4⟩
      lineAt := by decide +kernel
      parts := by decide +kernel
      inside := by decide
      found := by decide +kernel
      filled := by decide
      entries := spelledFlags
      lines := by decide +kernel
      room := by decide }
    orderLocated := by decide +kernel
    flagsLocated := by decide +kernel
    apart := by decide
    orderOutside := by decide
    flagsOutside := by decide
    read := hroot
    orderNames := by rw [hflags]; rfl
    flagNames := hkeys }⟩, hflags⟩

theorem reorder_keeps_notes_spelled :
    let entries := [(['a'], false), ("it's".toList, true)]
    let after : Text := ["m:", "  o:", "    - a # kept", "    - \"it's\"", "  f:",
      "    a: false  # kept", "    \"it's\": true"].flatMap (·.toList ++ ['\n'])
    ∃ (root : Value) (f : NotedEnum spelled ['m'] ['o'] ['f'] root) (es : List Edit),
      entries.Perm (root.orderedFlags ['m'] ['o'] ['f']) ∧
      reorder spelled ['m'] ['o'] ['f'] entries = .ok es ∧
      Edit.applyAll? es spelled = some after ∧ after.lines.map Line.parts = f.rewritten entries ∧
      f.order.Keeps ∧ f.flags.Keeps := by
  intro entries after
  obtain ⟨root, ⟨f⟩, hflags⟩ := exists_notedEnum_spelled
  have hperm : entries.Perm (root.orderedFlags ['m'] ['o'] ['f']) := by
    rw [hflags]
    decide
  obtain ⟨es, u, hes, happly, hlines, horder, hmap⟩ := reorder_keeps_notes_iff_stands f hperm
  have htext : (reorder spelled ['m'] ['o'] ['f'] entries).toOption.bind
      (Edit.applyAll? · spelled) = some after := by decide +kernel
  rw [hes] at htext
  obtain rfl : u = after := Option.some.inj (happly.symm.trans htext)
  exact ⟨root, f, es, hperm, hes, happly, hlines, horder, hmap⟩

/-- A quote that is written twice between single quotes: the name loses its
notes in both blocks. -/
theorem notes_lost_behind_doubled_quote :
    let t := ["m:", "  order:", "    - 'it''s'  # note", "    - b", "  map:",
      "    'it''s': true  # flag", "    b: true"].flatMap (·.toList ++ ['\n'])
    let entries := [(['b'], true), ("it's".toList, true)]
    (Value.ofText t).toOption.map (·.orderedFlags ['m'] "order".toList "map".toList) =
        some [("it's".toList, true), (['b'], true)] ∧
      ∃ es u, reorder t ['m'] "order".toList "map".toList entries = .ok es ∧
        Edit.applyAll? es t = some u ∧
        u = ["m:", "  order:", "    - b", "    - \"it's\"", "  map:", "    b: true",
          "    \"it's\": true"].flatMap (·.toList ++ ['\n']) := by
  intro t entries
  obtain ⟨es, hes⟩ : ∃ es, reorder t ['m'] "order".toList "map".toList entries = .ok es :=
    isSome_toOption_iff.mp (by decide +kernel)
  have htext : (reorder t ['m'] "order".toList "map".toList entries).toOption.bind
      (Edit.applyAll? · t) = some (["m:", "  order:", "    - b", "    - \"it's\"", "  map:",
        "    b: true", "    \"it's\": true"].flatMap (·.toList ++ ['\n'])) := by
    decide +kernel
  rw [hes] at htext
  exact ⟨by decide +kernel, es, _, hes, htext, rfl⟩

end Marginalia.Yaml.Patch
