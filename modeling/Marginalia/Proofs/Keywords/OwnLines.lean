import Marginalia.Proofs.Keywords.Amended
import Marginalia.Proofs.Session.Fixed

/-!
# Edits in place touch the lines of their group

The whole text is written again after every edit, so that only one group changes
its lines has to be seen in what is written: the lines above and below a group,
blank lines and comments included, do not depend on its content.  In a text that
is written as itself they are the lines that were read, and the group stands
there at the line that it remembers, since the lines of content above it are
those of the groups above it.
-/

namespace Marginalia

namespace Text

/-- Lines without a line feed stand in the text as they were written. -/
theorem map_raw_lines_flatMap {ls : List Text} (h : ∀ l ∈ ls, '\n' ∉ l) :
    (Text.lines (ls.flatMap (· ++ ['\n']))).map Line.raw = ls.map (· ++ ['\n']) := by
  rw [lines, map_raw_linesFrom]
  induction ls with
  | nil => rfl
  | cons l ls ih =>
      obtain ⟨hl, hrest⟩ := List.forall_mem_cons.mp h
      have hpieces := pieces_append_lf hl (ls.flatMap (· ++ ['\n']))
      have htext : (l :: ls).flatMap (· ++ ['\n']) = l ++ '\n' :: ls.flatMap (· ++ ['\n']) := by
        simp
      rw [htext, hpieces, ih hrest, List.map_cons]

end Text

namespace Keywords

open Text (joinLines)

namespace KeywordList

theorem unlines_append (ls ms : List Text) : unlines (ls ++ ms) = unlines ls ++ unlines ms :=
  List.flatMap_append

/-- In a text that was written every line ends with a line feed. -/
theorem raw_of_mem_lines_unlines {ls : List Text} (h : ∀ l ∈ ls, Text.IsLine l) :
    ∀ l ∈ Text.lines (unlines ls), l.raw = l.content ++ ['\n'] := by
  have hraw : (Text.lines (unlines ls)).map Line.raw = ls.map (· ++ ['\n']) :=
    Text.map_raw_lines_flatMap fun l hl => (h l hl).1
  have hcontent : (Text.lines (unlines ls)).map Line.content = ls :=
    Text.map_content_lines_flatMap h
  rw [← hcontent, List.map_map, hcontent] at hraw
  exact List.map_inj_left.mp hraw

theorem joinLines_eq_unlines {ms : List Line} (h : ∀ l ∈ ms, l.raw = l.content ++ ['\n']) :
    joinLines ms = unlines (ms.map Line.content) := by
  rw [joinLines, unlines, List.flatMap_map]
  exact List.flatMap_congr h

end KeywordList

/-! ## What is written around a group -/

namespace Group

variable {gs : List Group} {g : Group} {i : Nat}

/-- The lines that are written above the content of group `i`, its comments
included. -/
def linesAbove : List Group → Nat → List Text
  | [], _ => []
  | g :: _, 0 => g.comments
  | g :: gs, i + 1 => g.block g.comments gs.head? ++ linesAbove gs i

/-- The lines that are written below the content of group `i`. -/
def linesBelow : List Group → Nat → List Text
  | [], _ => []
  | g :: gs, 0 => (if g.blankAfter gs.head? then [[]] else []) ++ blocks gs
  | _ :: gs, i + 1 => linesBelow gs i

/-- Whether a blank line follows a group does not depend on the content of the
next one. -/
theorem blankAfter_head?_set (above : Group) (hg : gs[i]? = some g) (kind : GroupKind) :
    above.blankAfter (gs.set i { g with kind }).head? = above.blankAfter gs.head? := by
  cases gs with
  | nil => rfl
  | cons first gs =>
      cases i with
      | zero =>
          obtain rfl : first = g := Option.some.inj hg
          rfl
      | succ i => rfl

theorem blocks_set_kind (hg : gs[i]? = some g) (kind : GroupKind) :
    blocks (gs.set i { g with kind }) = linesAbove gs i ++ kind.lines ++ linesBelow gs i := by
  induction gs generalizing i with
  | nil => cases hg
  | cons first gs ih =>
      cases i with
      | zero =>
          obtain rfl : first = g := Option.some.inj hg
          have hblank : ({ first with kind } : Group).blankAfter gs.head? =
              first.blankAfter gs.head? := rfl
          simp only [List.set_cons_zero, blocks, block, linesAbove, linesBelow, hblank,
            List.append_assoc]
      | succ i =>
          have hrest : gs[i]? = some g := hg
          have hblank := blankAfter_head?_set first hrest kind
          simp only [List.set_cons_succ, blocks, block, linesAbove, linesBelow, ih hrest, hblank,
            List.append_assoc]

theorem startsList_set_kind (h : ∀ first ∈ gs.head?, first.StartsList) (hg : gs[i]? = some g)
    (kind : GroupKind) : ∀ first ∈ (gs.set i { g with kind }).head?, first.StartsList := by
  cases gs with
  | nil => cases hg
  | cons first gs =>
      cases i with
      | zero =>
          obtain rfl : first = g := Option.some.inj hg
          intro changed hchanged
          obtain rfl := Option.some.inj hchanged
          exact h first rfl
      | succ i => exact h

end Group

namespace KeywordList

/-- The lines down to the comments of the second sentinel. -/
def top (l : KeywordList) (y : Layout) : List Text :=
  y.header ++ [Section.globalFilter.sentinel] ++ y.globalComments ++ (l.globalFilter ++ [[]]) ++
    [Section.wordGroups.sentinel] ++ y.groupsComments

/-- The lines that are written above the content of group `i`. -/
def linesAbove (l : KeywordList) (y : Layout) (i : Nat) : List Text :=
  l.top y ++ [] :: Group.linesAbove l.groups i

/-- The lines that are written below the content of group `i`. -/
def linesBelow (l : KeywordList) (i : Nat) : List Text :=
  Group.linesBelow l.groups i ++ l.trailing

theorem lines_eq_top (l : KeywordList) (y : Layout) : l.lines y = l.top y ++ l.inside :=
  lines_eq l y

/-- Another content of a group stands between the same lines. -/
theorem inside_set_kind {l : KeywordList} {g : Group} {i : Nat} (hg : l.groups[i]? = some g)
    (hfirst : ∀ first ∈ l.groups.head?, first.StartsList) (kind : GroupKind) :
    ({ l with groups := l.groups.set i { g with kind } } : KeywordList).inside =
      ([] :: Group.linesAbove l.groups i) ++ (kind.lines ++ l.linesBelow i) := by
  have hne : l.groups.set i { g with kind } ≠ [] := by
    rw [ne_eq, List.set_eq_nil_iff]
    intro hnil
    rw [hnil] at hg
    cases hg
  rw [inside, groupLines_eq_blocks,
    Group.startList_eq_self (Group.startsList_set_kind hfirst hg kind),
    Group.blocks_set_kind hg kind, List.isEmpty_eq_false_iff.mpr hne]
  simp [linesBelow]

theorem inside_eq_of_getElem? {l : KeywordList} {g : Group} {i : Nat} (hg : l.groups[i]? = some g)
    (hfirst : ∀ first ∈ l.groups.head?, first.StartsList) :
    l.inside = ([] :: Group.linesAbove l.groups i) ++ (g.kind.lines ++ l.linesBelow i) := by
  obtain ⟨hi, rfl⟩ := List.getElem?_eq_some_iff.mp hg
  have hsame : l.groups.set i { l.groups[i] with kind := l.groups[i].kind } = l.groups :=
    List.set_getElem_self hi
  have hinside := inside_set_kind hg hfirst l.groups[i].kind
  rwa [hsame] at hinside

theorem lines_set_kind {l : KeywordList} {g : Group} {i : Nat} (hg : l.groups[i]? = some g)
    (hfirst : ∀ first ∈ l.groups.head?, first.StartsList) (kind : GroupKind) (y : Layout) :
    ({ l with groups := l.groups.set i { g with kind } } : KeywordList).lines y =
      l.linesAbove y i ++ kind.lines ++ l.linesBelow i := by
  rw [lines_eq_top, inside_set_kind hg hfirst, linesAbove, List.append_assoc, List.append_assoc]
  rfl

/-- Above the first group of a list that was read stands no blank line. -/
theorem startsList_of_unplaced {l : KeywordList} (h : l.unplaced.Canonical) :
    ∀ first ∈ l.groups.head?, first.StartsList := by
  obtain ⟨-, runs, hruns, hgroups, -⟩ := h
  have hcommented := (hruns.commented 0).2
  rw [← hgroups, unplaced, List.map_map] at hcommented
  intro first hhead
  exact hcommented first.comments (by rw [List.head?_map, hhead]; rfl)

end KeywordList

/-! ## Lines of content -/

def isContentLine (line : Text) : Bool :=
  (LineClass.ofContent line).isContent

theorem isContentLine_of_isNote {line : Text} (h : IsNote line) : isContentLine line = false := by
  rcases h with rfl | h
  · decide
  · rw [isContentLine, h.ofContent_eq]
    rfl

theorem GroupKind.isContentLine_of_mem_lines {kind : GroupKind} (h : kind.Readable) :
    ∀ line ∈ kind.lines, isContentLine line = true := by
  have hreads : ∀ {line : Text} {c : LineClass}, ReadsAs line c → c.isContent = true →
      isContentLine line = true := fun hline hc => by rw [isContentLine, hline.ofContent_eq, hc]
  cases kind with
  | plain keywords => exact fun line hline => hreads (h.2 line hline) rfl
  | named name keywords =>
      exact List.forall_mem_cons.mpr
        ⟨hreads h.1 rfl, fun line hline => hreads (h.2 line hline) rfl⟩
  | single item => exact List.forall_mem_singleton.mpr (hreads h rfl)
  | cluster items =>
      intro line hline
      obtain ⟨a, ha, rfl⟩ := List.mem_map.mp hline
      exact hreads (h.2 a ha) rfl

theorem filter_isContentLine_of_isNote {cs : List Text} (h : ∀ c ∈ cs, IsNote c) :
    cs.filter isContentLine = [] :=
  List.filter_eq_nil_iff.mpr fun c hc => by simp [isContentLine_of_isNote (h c hc)]

theorem filter_isContentLine_lines {kind : GroupKind} (h : kind.Readable) :
    kind.lines.filter isContentLine = kind.lines :=
  List.filter_eq_self.mpr (GroupKind.isContentLine_of_mem_lines h)

theorem Group.filter_linesAbove {gs : List Group} (h : ∀ g ∈ gs, g.Readable) {i : Nat}
    (hi : i < gs.length) :
    (linesAbove gs i).filter isContentLine = (gs.take i).flatMap fun g => g.kind.lines := by
  induction gs generalizing i with
  | nil => cases hi
  | cons g gs ih =>
      obtain ⟨hg, hgs⟩ := List.forall_mem_cons.mp h
      have hcomments := filter_isContentLine_of_isNote hg.comments
      cases i with
      | zero => exact hcomments
      | succ i =>
          have hblank : (if g.blankAfter gs.head? then [[]] else []).filter isContentLine = [] := by
            apply filter_isContentLine_of_isNote
            intro c hc
            split at hc
            · exact Or.inl (List.mem_singleton.mp hc)
            · cases hc
          simp only [linesAbove, block, List.filter_append, hcomments, hblank,
            filter_isContentLine_lines hg.kind, ih hgs (Nat.lt_of_succ_lt_succ hi), List.nil_append,
            List.append_nil, List.take_succ_cons, List.flatMap_cons]

/-! ## Where a group stands -/

/-- Within a section that counts all lines of content do. -/
theorem contentIn_eq_filter {keep : Option Section → Bool} {opened : Option Section}
    {ls : List Line} (hkeep : keep opened = true)
    (h : ∀ l ∈ ls, ∀ next, LineClass.ofContent l.content ≠ .sentinel next) :
    contentIn keep opened ls = ls.filter fun l => isContentLine l.content := by
  induction ls with
  | nil => rfl
  | cons l ls ih =>
      obtain ⟨hl, hls⟩ := List.forall_mem_cons.mp h
      have hbelow : Section.below opened l = opened := by
        unfold Section.below
        split
        · next next hnext => exact absurd hnext (hl next)
        · rfl
      simp only [contentIn, hbelow, ih hls, hkeep, Bool.and_true, List.filter_cons]
      rfl

/-- Down to the comments of the second sentinel no line belongs to a group. -/
theorem groupContent_top {ls : List Line}
    (hindex : ∀ (k : Nat) (l : Line), ls[k]? = some l → l.index = k) {l : KeywordList} {y : Layout}
    {P : Text → Prop} (hy : y.Copies P) (hwords : ∀ w ∈ l.globalFilter, IsWord w)
    (hls : ls.map Line.content = l.top y) :
    groupContent ls = [] ∧ sectionBelow ls ≠ some .globalFilter := by
  have hcovers := Assembly.Covers.foldl_push ls hindex
  have hread : (ls.foldl Assembly.push .empty).unplaced =
      Assembly.underWordGroups l.globalFilter := by
    rw [Assembly.unplaced_foldl_push, hls]
    exact Assembly.read_above hy hwords
  -- what was read so far holds no group, open or closed, and accounts for all
  -- lines of groups
  generalize ls.foldl Assembly.push .empty = a at hcovers hread
  have hopened : a.opened = some .wordGroups := congrArg Assembly.opened hread
  have hgroups := congrArg (fun b => b.list.groups) hread
  have hrun := congrArg Assembly.run hread
  have hleaf := congrArg Assembly.leaf hread
  simp only [Assembly.unplaced, Assembly.underWordGroups, Assembly.empty, KeywordList.unplaced,
    List.map_eq_nil_iff, Option.map_eq_none_iff] at hgroups hrun hleaf
  constructor
  · rw [← hcovers.groups.flatMap_linesIn]
    simp [Assembly.placed, hgroups, hrun, hleaf]
  · rw [ne_eq, ← hcovers.opened_iff, hopened]
    simp

theorem AccountsFor.length_linesIn {ls content : List Line} {gs : List Group} {g : Group}
    (h : AccountsFor ls content gs) (hg : g ∈ gs) :
    (g.linesIn ls).length = g.kind.lines.length := by
  rw [← GroupKind.length_classes, ← h.map_classOf g hg, List.length_map]

/-! ## Cutting a text at a group -/

/-- The lines of a text cut at the content of group `i`. -/
structure CutAt (t : Text) (i : Nat) (g : Group) (above own below : List Line) : Prop where
  group : (KeywordList.ofText t).groups[i]? = some g
  lines_eq : t.lines = above ++ (own ++ below)
  above_eq : above.map Line.content = (KeywordList.ofText t).linesAbove (Layout.ofText t) i
  own_eq : own.map Line.content = g.kind.lines
  below_eq : below.map Line.content = (KeywordList.ofText t).linesBelow i

namespace CutAt

variable {t : Text} {i : Nat} {g : Group} {above own below : List Line}

/-- The lines of the groups are the lines of content below the second
sentinel. -/
theorem flatMap_linesIn (h : CutAt t i g above own below)
    (hcanonical : (KeywordList.ofText t).unplaced.Canonical) :
    ∃ top inner, above = top ++ inner ∧
      inner.map Line.content = [] :: Group.linesAbove (KeywordList.ofText t).groups i ∧
      (KeywordList.ofText t).groups.flatMap (Group.linesIn t.lines) =
        (inner ++ (own ++ below)).filter fun l => isContentLine l.content := by
  obtain ⟨hwritable, -⟩ := KeywordList.writable_spaced_of_unplaced hcanonical
  obtain ⟨top, inner, rfl, htop, hinner⟩ := List.map_eq_append_iff.mp h.above_eq
  refine ⟨top, inner, rfl, hinner, ?_⟩
  have hlines : t.lines = top ++ (inner ++ (own ++ below)) := by
    rw [h.lines_eq, List.append_assoc]
  have hindex : ∀ (k : Nat) (l : Line), top[k]? = some l → l.index = k := fun k l hl =>
    Text.index_of_getElem? (t := t) (by
      rw [hlines, List.getElem?_append_left (List.getElem?_eq_some_iff.mp hl).1, hl])
  obtain ⟨hnone, hsection⟩ := groupContent_top hindex (KeywordList.copies_layout t)
    hwritable.words htop
  have hinside : (inner ++ (own ++ below)).map Line.content = (KeywordList.ofText t).inside := by
    rw [List.map_append, List.map_append, hinner, h.own_eq, h.below_eq,
      KeywordList.inside_eq_of_getElem? h.group (KeywordList.startsList_of_unplaced hcanonical)]
  have hsentinel : ∀ l ∈ inner ++ (own ++ below), ∀ next,
      LineClass.ofContent l.content ≠ .sentinel next := fun l hl =>
    (hwritable.isInside_of_mem_inside l.content (hinside ▸ List.mem_map_of_mem hl)).2
  have hkeep : (sectionBelow top != some .globalFilter) = true := bne_iff_ne.mpr hsection
  calc (KeywordList.ofText t).groups.flatMap (Group.linesIn t.lines)
      = groupContent t.lines := (KeywordList.accountsFor_ofText t).1.flatMap_linesIn
    _ = groupContent top ++
          contentIn (· != some .globalFilter) (sectionBelow top) (inner ++ (own ++ below)) := by
        rw [hlines, groupContent, contentIn_append]
        rfl
    _ = (inner ++ (own ++ below)).filter fun l => isContentLine l.content := by
        rw [hnone, List.nil_append]
        exact contentIn_eq_filter hkeep hsentinel

/-- As many lines of content stand above a group as the groups above it have. -/
theorem length_flatMap_take (hi : i < (KeywordList.ofText t).groups.length)
    (hreadable : ∀ g ∈ (KeywordList.ofText t).groups, g.Readable) {inner : List Line}
    (hinner : inner.map Line.content = [] :: Group.linesAbove (KeywordList.ofText t).groups i) :
    (((KeywordList.ofText t).groups.take i).flatMap (Group.linesIn t.lines)).length =
      (inner.filter fun l => isContentLine l.content).length := by
  have hblank : isContentLine [] = false := isContentLine_of_isNote (Or.inl rfl)
  have hcount : ∀ above ∈ (KeywordList.ofText t).groups.take i,
      (above.linesIn t.lines).length = above.kind.lines.length := fun above habove =>
    (KeywordList.accountsFor_ofText t).1.length_linesIn (List.mem_of_mem_take habove)
  calc (((KeywordList.ofText t).groups.take i).flatMap (Group.linesIn t.lines)).length
      = (((KeywordList.ofText t).groups.take i).flatMap fun g => g.kind.lines).length := by
        rw [List.length_flatMap, List.length_flatMap, List.map_congr_left hcount]
    _ = (([] :: Group.linesAbove (KeywordList.ofText t).groups i).filter isContentLine).length := by
        rw [← Group.filter_linesAbove hreadable hi, List.filter_cons, hblank]
        rfl
    _ = (inner.filter fun l => isContentLine l.content).length := by
        rw [← hinner, List.filter_map, List.length_map]
        rfl

/-- The group at the cut has its own lines, and remembers the number of the
first one. -/
theorem linesIn_eq (h : CutAt t i g above own below)
    (hcanonical : (KeywordList.ofText t).unplaced.Canonical) :
    g.linesIn t.lines = own ∧ above.length = g.start := by
  obtain ⟨hwritable, -⟩ := KeywordList.writable_spaced_of_unplaced hcanonical
  obtain ⟨top, inner, rfl, hinner, hcontent⟩ := h.flatMap_linesIn hcanonical
  obtain ⟨hi, hgroup⟩ := List.getElem?_eq_some_iff.mp h.group
  have hg : g ∈ (KeywordList.ofText t).groups := List.mem_of_getElem? h.group
  have haccounts := (KeywordList.accountsFor_ofText t).1
  have hown : (own.filter fun l => isContentLine l.content) = own :=
    List.filter_eq_self.mpr fun l hl =>
      GroupKind.isContentLine_of_mem_lines (hwritable.groups g hg).kind l.content
        (h.own_eq ▸ List.mem_map_of_mem hl)
  have hgs : (KeywordList.ofText t).groups = (KeywordList.ofText t).groups.take i ++
      g :: (KeywordList.ofText t).groups.drop (i + 1) := by
    rw [← hgroup, ← List.drop_eq_getElem_cons hi, List.take_append_drop]
  have hsame : g.linesIn t.lines = own := by
    have hlength := length_flatMap_take hi hwritable.groups hinner
    have hcount : (g.linesIn t.lines).length = own.length := by
      rw [haccounts.length_linesIn hg, ← h.own_eq, List.length_map]
    -- both sides are the lines of content in order, and as many of them stand
    -- above the group
    rw [hgs, List.flatMap_append, List.flatMap_cons, List.filter_append, List.filter_append, hown]
      at hcontent
    exact List.append_inj_left (List.append_inj_right hcontent hlength) hcount
  refine ⟨hsame, ?_⟩
  -- the first of its lines has the number of the place where it stands, counted
  -- either way
  have hpos : 0 < own.length := by
    rw [← hsame, haccounts.length_linesIn hg]
    exact haccounts.lineCount_pos g hg
  obtain ⟨first, rest, rfl⟩ := List.exists_cons_of_length_pos hpos
  have hhere : t.lines[(top ++ inner).length]? = some first := by
    rw [h.lines_eq]
    simp
  have hstart : t.lines[g.start]? = some first := by
    obtain ⟨tail, htail⟩ := List.take_prefix g.lineCount (t.lines.drop g.start)
    rw [← Group.linesIn, hsame] at htail
    rw [← List.head?_drop, ← htail]
    rfl
  rw [← Text.index_of_getElem? hhere, Text.index_of_getElem? hstart]

/-- Where a text is cut above and below the content of a group. -/
theorem take_drop_lines (h : CutAt t i g above own below)
    (hcanonical : (KeywordList.ofText t).unplaced.Canonical) :
    t.lines.take g.start = above ∧ (t.lines.drop g.start).take g.lineCount = own ∧
      t.lines.drop (g.start + g.lineCount) = below := by
  obtain ⟨hown, hstart⟩ := h.linesIn_eq hcanonical
  have hcount : g.lineCount = own.length := by
    rw [Group.lineCount, ← h.own_eq, List.length_map]
  refine ⟨?_, hown, ?_⟩
  · rw [h.lines_eq, ← hstart, List.take_left]
  · rw [h.lines_eq, ← hstart, hcount, ← List.append_assoc, ← List.length_append, List.drop_left]

end CutAt

/-- A text that is written as itself can be cut at each of its groups. -/
theorem exists_cutAt {t : Text}
    (ht : (KeywordList.ofText t).toText (some t) = t) {i : Nat} {g : Group}
    (hg : (KeywordList.ofText t).groups[i]? = some g) :
    ∃ above own below, CutAt t i g above own below := by
  obtain ⟨hcanonical, hlayout⟩ := KeywordList.canonical_of_toText_eq ht
  obtain ⟨hwritable, -⟩ := KeywordList.writable_spaced_of_unplaced hcanonical
  have hcontent := (hwritable.layout_ofText_toText hlayout).1
  rw [ht, KeywordList.lines_eq_top,
    KeywordList.inside_eq_of_getElem? hg (KeywordList.startsList_of_unplaced hcanonical),
    ← List.append_assoc, ← KeywordList.linesAbove] at hcontent
  obtain ⟨above, rest, hlines, habove, hrest⟩ := List.map_eq_append_iff.mp hcontent
  obtain ⟨own, below, rfl, hown, hbelow⟩ := List.map_eq_append_iff.mp hrest
  exact ⟨above, own, below, hg, hlines, habove, hown, hbelow⟩

/-! ## Edits -/

/-- The edit gives group `i` another content; if it takes an alias from the
group, one is left. -/
def KeywordEdit.AltersAt (l : KeywordList) (i : Nat) : KeywordEdit → Prop
  | setKeywords index _ | renameGroup index _ | addAlias index _ => index = i
  | removeAlias index _ => index = i ∧
    ∃ items, (l.groups[index]?).map Group.kind = some (.cluster items) ∧ 1 < items.length
  | _ => False

namespace KeywordEdit

variable {l : KeywordList} {e : KeywordEdit} {i : Nat}

theorem AltersAt.amends (h : e.AltersAt l i) : e.Amends l := by
  cases e with
  | setKeywords _ _ => trivial
  | renameGroup _ _ => trivial
  | addAlias _ _ => trivial
  | removeAlias _ _ => exact h.2
  | _ => exact h.elim

theorem Recasts.eq_of_altersAt {index : Nat} {old kind : GroupKind} (h : e.Recasts index old kind)
    (he : e.AltersAt l i) : index = i := by
  cases h with
  | lessAlias _ => exact he.1
  | _ => exact he

end KeywordEdit

namespace KeywordList

variable {l l' : KeywordList} {i : Nat}

/-- An accepted edit of the content of a group changes nothing else of the
list. -/
theorem exists_set_of_altersAt {e : KeywordEdit} (he : e.AltersAt l i) (hl : e.run? l = some l') :
    ∃ g kind, l.groups[i]? = some g ∧ l' = { l with groups := l.groups.set i { g with kind } } := by
  cases edited_of_run? hl with
  | @recast _ _ g kind hg hrecasts =>
      obtain rfl := hrecasts.eq_of_altersAt he
      exact ⟨g, kind, hg, rfl⟩
  | removed hg hremoves => exact (hremoves.not_amends hg he.amends).elim
  | reworded words => exact he.elim
  | inserted index kind _ => exact he.elim
  | moved _ _ _ => exact he.elim
  | stayed _ => exact he.elim

/-- In a text that is written as itself the lines of group `i` stand where it
remembers, and an accepted edit of its content puts the new lines there and
keeps what stands above and below. -/
theorem toText_of_altersAt {t : Text} {e : KeywordEdit} {l : KeywordList}
    (ht : (ofText t).toText (some t) = t) (he : e.AltersAt (ofText t) i)
    (hl : e.run? (ofText t) = some l) :
    ∃ g g', (ofText t).groups[i]? = some g ∧ l.groups[i]? = some g' ∧
      joinLines ((t.lines.drop g.start).take g.lineCount) = unlines g.kind.lines ∧
      l.toText (some t) = joinLines (t.lines.take g.start) ++ unlines g'.kind.lines ++
        joinLines (t.lines.drop (g.start + g.lineCount)) := by
  obtain ⟨g, kind, hg, rfl⟩ := exists_set_of_altersAt he hl
  obtain ⟨hcanonical, hlayout⟩ := canonical_of_toText_eq ht
  obtain ⟨above, own, below, hcut⟩ := exists_cutAt ht hg
  obtain ⟨habove, hown, hbelow⟩ := hcut.take_drop_lines hcanonical
  have hraw : ∀ line ∈ t.lines, line.raw = line.content ++ ['\n'] := by
    have hlines := raw_of_mem_lines_unlines (isLine_of_mem_lines hcanonical hlayout)
    have htext : unlines ((ofText t).unplaced.lines (Layout.ofText t)) = t := by
      rw [lines_unplaced]
      exact ht
    rwa [htext] at hlines
  have hjoin : ∀ part, part ⊆ t.lines → joinLines part = unlines (part.map Line.content) :=
    fun part hpart => joinLines_eq_unlines fun line hline => hraw line (hpart hline)
  have hi := (List.getElem?_eq_some_iff.mp hg).1
  refine ⟨g, { g with kind }, hg, by simp [hi], ?_, ?_⟩
  · rw [hown, hjoin own (by simp [hcut.lines_eq]), hcut.own_eq]
  · rw [habove, hbelow, hjoin above (by simp [hcut.lines_eq]), hcut.above_eq,
      hjoin below (by simp [hcut.lines_eq]), hcut.below_eq, ← unlines_append, ← unlines_append]
    exact congrArg unlines (lines_set_kind hg (startsList_of_unplaced hcanonical) kind _)

/-- The second group of a run gets a name, below the comment that stood above
it. -/
theorem toText_of_altersAt_named :
    let t : Text :=
      "# list\n[GLOBAL_FILTER]\nw\n\n[WORD_GROUPS]\n\nx => y\n# b\nB\n\n# c\n".toList
    ∃ l, (KeywordEdit.renameGroup 1 ['N']).run? (ofText t) = some l ∧
      l.toText (some t) =
        "# list\n[GLOBAL_FILTER]\nw\n\n[WORD_GROUPS]\n\nx => y\n# b\n[N]\nB\n\n# c\n".toList := by
  intro t
  have ht : (ofText t).toText (some t) = t := by decide
  have halters : (KeywordEdit.renameGroup 1 ['N']).AltersAt (ofText t) 1 := rfl
  obtain ⟨l, hl, hkind⟩ : ∃ l, (KeywordEdit.renameGroup 1 ['N']).run? (ofText t) = some l ∧
      l.groups[1]?.map Group.kind = some (.named ['N'] [['B']]) := ⟨_, rfl, by decide⟩
  have hplace : (ofText t).groups[1]?.map (fun g => (g.start, g.lineCount)) = some (8, 1) := by
    decide
  obtain ⟨g, g', hg, hg', -, htext⟩ := toText_of_altersAt ht halters hl
  rw [hg] at hplace
  obtain ⟨hstart, hcount⟩ := Prod.mk.inj (Option.some.inj hplace)
  rw [hg'] at hkind
  rw [hstart, hcount, Option.some.inj hkind] at htext
  exact ⟨l, hl, htext.trans (by decide)⟩

end KeywordList

end Keywords

end Marginalia
