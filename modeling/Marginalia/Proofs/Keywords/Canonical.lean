import Marginalia.Proofs.Keywords.Layout
import Marginalia.Proofs.Keywords.Reading

/-!
# The canonical text

A canonical list, written in a canonical layout, is read back with its layout.
Every list that was read from a text is canonical, and so is every layout.
Hence writing what was read gives a text that holds the same list, and that is
written as itself.
-/

namespace Marginalia.Keywords

namespace KeywordList

/-! ## The written lines -/

/-- The lines below the comments of the second sentinel. -/
def inside (l : KeywordList) : List Text :=
  (if l.groups.isEmpty && l.trailing.isEmpty then [] else [[]]) ++ l.groupLines ++ l.trailing

theorem lines_eq (l : KeywordList) (y : Layout) :
    l.lines y = y.header ++ [Section.globalFilter.sentinel] ++ y.globalComments ++
      (l.globalFilter ++ [[]]) ++ [Section.wordGroups.sentinel] ++ y.groupsComments ++
        l.inside := by
  simp [lines, inside]

theorem isInside_of_mem_inside {l : KeywordList} (h : l.Canonical) :
    ∀ line ∈ l.inside, IsInside line := by
  obtain ⟨-, runs, hruns, hgroups, htrailing⟩ := h
  intro line hline
  rw [inside, List.mem_append, List.mem_append, groupLines_eq_runsLines hgroups hruns] at hline
  rcases hline with (hline | hline) | hline
  · have hnil : line = [] := by
      split at hline
      · cases hline
      · exact List.mem_singleton.mp hline
    rw [hnil]
    exact isInside_nil
  · exact Group.isInside_of_mem_runsLines hruns.isRun line hline
  · exact isInside_of_isNote (htrailing.notes line hline)

theorem head?_inside (l : KeywordList) :
    l.inside.head? = none ∨ l.inside.head? = some [] := by
  by_cases hempty : (l.groups.isEmpty && l.trailing.isEmpty) = true
  · left
    simp only [Bool.and_eq_true, List.isEmpty_iff] at hempty
    simp [inside, groupLines, hempty.1, hempty.2]
  · right
    simp [inside, hempty]

theorem isLine_of_mem_lines {l : KeywordList} {y : Layout} (h : l.Canonical) (hy : y.Canonical) :
    ∀ line ∈ l.lines y, Text.IsLine line := by
  intro line hline
  simp only [lines_eq, List.mem_append, List.mem_singleton] at hline
  rcases hline with
    (((((hline | rfl) | hline) | (hline | rfl)) | rfl) | hline) | hline
  · exact (hy.header line hline).1
  · exact isLine_sentinel .globalFilter
  · exact (hy.globalComments line hline).isLine
  · exact (h.1 line hline).isLine
  · exact isInside_nil.1
  · exact isLine_sentinel .wordGroups
  · exact (hy.groupsComments line hline).isLine
  · exact (isInside_of_mem_inside h line hline).1

/-! ## Line numbers -/

theorem blocks_map_unplaced (gs : List Group) :
    Group.blocks (gs.map Group.unplaced) = Group.blocks gs := by
  induction gs with
  | nil => rfl
  | cons g gs ih =>
      rw [List.map_cons, Group.blocks, Group.blocks, ih]
      cases gs with
      | nil => rfl
      | cons next gs => rfl

/-- Groups have no line numbers in the written text. -/
theorem lines_unplaced (l : KeywordList) (y : Layout) : l.unplaced.lines y = l.lines y := by
  have hgroups : l.unplaced.groupLines = l.groupLines := by
    cases hl : l.groups with
    | nil => simp [groupLines, unplaced, hl]
    | cons g gs =>
        have hblocks := blocks_map_unplaced gs
        simp only [groupLines, unplaced, hl, List.map_cons, hblocks]
        cases gs with
        | nil => rfl
        | cons next gs => rfl
  have hempty : l.unplaced.groups.isEmpty = l.groups.isEmpty := by
    simp [unplaced]
  rw [lines, lines, hgroups, hempty]
  rfl

theorem toText_unplaced (l : KeywordList) (earlier : Option Text) :
    l.unplaced.toText earlier = l.toText earlier := by
  rw [toText, toText, lines_unplaced]

end KeywordList

namespace Assembly

/-! ## Reading the sections -/

/-- Below the comments of the second sentinel. -/
def underWordGroups (words : List Text) : Assembly :=
  { empty with
    opened := some .wordGroups
    afterSentinel := true
    list := ⟨words, [], []⟩ }

theorem read_header {ls : List Text}
    (h : ∀ line ∈ ls, Text.trim line = [] ∨ (Text.trim line).head? = some '#') :
    empty.read ls = empty := by
  induction ls with
  | nil => rfl
  | cons line ls ih =>
      have hline : empty.pushContent line = empty := by
        rcases h line (by simp) with hblank | hcomment
        · have hclass : LineClass.ofContent line = .blank := by
            simp [LineClass.ofContent, hblank]
          rw [pushContent_blank hclass, pushBlank_of_opened_ne (by decide)]
          rfl
        · have hclass := LineClass.ofContent_eq_comment_iff.mpr ⟨hcomment, rfl⟩
          rw [pushContent_comment hclass, pushComment_of_skip (Or.inr (by decide))]
      rw [read_cons, hline]
      exact ih fun l hl => h l (by simp [hl])

theorem read_skipped {a : Assembly} {cs : List Text} (hafter : a.afterSentinel = true)
    (h : ∀ c ∈ cs, ReadsAs c (.comment c)) : a.read cs = a := by
  induction cs with
  | nil => rfl
  | cons c cs ih =>
      rw [read_cons, pushContent_comment (h c (by simp)).ofContent_eq,
        pushComment_of_skip (Or.inl hafter)]
      exact ih fun d hd => h d (by simp [hd])

theorem read_words {a : Assembly} {words : List Text} (hopened : a.opened = some .globalFilter)
    (h : ∀ w ∈ words, IsWord w) :
    a.read (words ++ [[]]) =
      { a with
        afterSentinel := false
        list := ⟨a.list.globalFilter ++ words, a.list.groups, a.list.trailing⟩ } := by
  induction words generalizing a with
  | nil =>
      have hclass : LineClass.ofContent [] = .blank := by decide
      rw [List.nil_append, List.append_nil, read_cons, read_nil, pushContent_blank hclass,
        pushBlank_of_opened_ne (by simp [hopened])]
  | cons w words ih =>
      have hw := h w (by simp)
      have hcontent : LineClass.IsContent (Text.trim w) := by
        rw [hw.trim_eq]
        exact hw.isContent
      have hread := ih (a := a.pushWord w) hopened fun w' hw' => h w' (by simp [hw'])
      rw [List.cons_append, read_cons, pushContent_word hcontent hopened, hw.trim_eq, hread]
      simp [pushWord]

/-- What is copied from an earlier text and the words lead to the place where
the groups begin. -/
theorem read_above {y : Layout} {P : Text → Prop} {words : List Text} (hy : y.Copies P)
    (hwords : ∀ w ∈ words, IsWord w) :
    empty.read (y.header ++ [Section.globalFilter.sentinel] ++ y.globalComments ++
      (words ++ [[]]) ++ [Section.wordGroups.sentinel] ++ y.groupsComments) =
        underWordGroups words := by
  have hopened : ∀ (a : Assembly) (opened : Section),
      a.read [opened.sentinel] = a.pushSentinel opened := fun a opened =>
    pushContent_sentinel (LineClass.ofContent_sentinel opened)
  have hglobal : (empty.pushSentinel .globalFilter).read y.globalComments =
      empty.pushSentinel .globalFilter := read_skipped rfl hy.globalComments
  have hfilter := read_words (a := empty.pushSentinel .globalFilter) rfl hwords
  have hgroups : (underWordGroups words).read y.groupsComments = underWordGroups words :=
    read_skipped rfl hy.groupsComments
  generalize words ++ [[]] = lines at hfilter
  rw [read_append, read_append, read_append, read_append, read_append,
    read_header fun line hline => (hy.header line hline).2, hopened empty, hglobal, hfilter,
    hopened]
  exact hgroups

/-- The blank line below the second sentinel ends its comments. -/
theorem read_blank_underWordGroups (words : List Text) :
    (underWordGroups words).read [[]] = between words [] := by
  rw [read_cons, read_nil, pushContent_blank (by decide), pushBlank_of_pending_eq_nil rfl rfl]
  rfl

/-- A canonical list is read back from the lines below the second sentinel. -/
theorem finish_read_inside {l : KeywordList} (h : l.Canonical) :
    ((underWordGroups l.globalFilter).read l.inside).finish = l := by
  obtain ⟨-, runs, hruns, hgroups, htrailing⟩ := h
  by_cases hempty : (l.groups.isEmpty && l.trailing.isEmpty) = true
  · obtain ⟨words, groups, trailing⟩ := l
    simp only [Bool.and_eq_true, List.isEmpty_iff] at hempty
    obtain ⟨rfl, rfl⟩ := hempty
    rfl
  · rw [KeywordList.inside, if_neg hempty, KeywordList.groupLines_eq_runsLines hgroups hruns,
      read_append, read_append, read_blank_underWordGroups, read_runsLines l.globalFilter hruns,
      finish_read_trailing hruns.isRun htrailing, ← hgroups]

end Assembly

namespace KeywordList

/-- A canonical list in a canonical layout is read back from its text. -/
theorem unplaced_ofText_unlines {l : KeywordList} {y : Layout} (h : l.Canonical)
    (hy : y.Canonical) :
    (ofText (unlines (l.lines y))).unplaced = l ∧ Layout.ofText (unlines (l.lines y)) = y := by
  have hlines : (Text.lines (unlines (l.lines y))).map Line.content = l.lines y :=
    Text.map_content_lines_flatMap (isLine_of_mem_lines h hy)
  constructor
  · rw [unplaced_ofText, hlines, lines_eq, Assembly.read_append,
      Assembly.read_above (Layout.canonical_iff_copies.mp hy) h.1,
      Assembly.finish_read_inside h]
  · rw [Layout.ofText_eq_read, hlines, lines_eq]
    exact Layout.read_lines (Layout.canonical_iff_copies.mp hy) h.1 (isInside_of_mem_inside h)
      (head?_inside l)

/-- The contents of a text can be read back when no name between brackets is
lost. -/
theorem isInput_of_mem_lines {t : Text}
    (hname : ∀ line ∈ t.lines, ∀ s, s ≠ [] →
      Text.trim line.content = '[' :: (s ++ [']']) →
      Section.ofSentinel? (Text.trim line.content) = none → IsGroupName (Text.trim s)) :
    ∀ content ∈ t.lines.map Line.content, IsInput content := by
  intro content hcontent
  obtain ⟨line, hline, rfl⟩ := List.mem_map.mp hcontent
  refine ⟨Text.not_mem_content_of_mem_lines hline, ?_⟩
  intro n hn
  obtain ⟨⟨-, hsentinel, -⟩, hbracketed⟩ := LineClass.ofContent_eq_name_iff.mp hn
  obtain ⟨s, hs, htrim, rfl⟩ := LineClass.bracketed?_eq_some_iff.mp hbracketed
  exact hname line hline s hs htrim hsentinel

/-- A text that was read and written once holds the same list, line numbers
apart, and is written as itself from then on.  A carriage return at the end of a
content would be taken for a part of the line feed behind it; an empty name, or
one that spells a sentinel, would be another line. -/
theorem toText_ofText_fixed (t : Text)
    (hcr : ∀ line ∈ t.lines, line.content.getLast? ≠ some '\r')
    (hname : ∀ line ∈ t.lines, ∀ s, s ≠ [] →
      Text.trim line.content = '[' :: (s ++ [']']) →
      Section.ofSentinel? (Text.trim line.content) = none → IsGroupName (Text.trim s)) :
    let u := (ofText t).toText (some t)
    (ofText u).toText (some u) = u ∧ (ofText u).unplaced = (ofText t).unplaced := by
  intro u
  have hlist : (ofText t).unplaced.Canonical := by
    rw [unplaced_ofText]
    exact canonical_read (isInput_of_mem_lines hname)
  have hlayout : (Layout.ofText t).Canonical := by
    rw [Layout.ofText_eq_read]
    apply Layout.canonical_read
    intro content hcontent
    obtain ⟨line, hline, rfl⟩ := List.mem_map.mp hcontent
    exact ⟨Text.not_mem_content_of_mem_lines hline, hcr line hline⟩
  have hu : u = unlines ((ofText t).unplaced.lines (Layout.ofText t)) :=
    (toText_unplaced (ofText t) (some t)).symm
  obtain ⟨hread, hcopied⟩ := unplaced_ofText_unlines hlist hlayout
  rw [← hu] at hread hcopied
  refine ⟨?_, hread⟩
  calc (ofText u).toText (some u)
      = (ofText u).unplaced.toText (some u) := (toText_unplaced _ _).symm
    _ = unlines ((ofText u).unplaced.lines (Layout.ofText u)) := rfl
    _ = u := by rw [hread, hcopied, ← hu]

theorem toText_ofText_fixed_mixed :
    let t : Text :=
      "# list\n[GLOBAL_FILTER]\nspam \n[WORD_GROUPS]\n+a\n\n\n# note\r\nb  => c\n[Name ]\n".toList
    let u := (ofText t).toText (some t)
    u ≠ t ∧ (ofText u).toText (some u) = u ∧ (ofText u).unplaced = (ofText t).unplaced := by
  intro t u
  have hcr : ∀ line ∈ t.lines, line.content.getLast? ≠ some '\r' := by decide
  have hbracketed : ∀ line ∈ t.lines, ∀ n ∈ LineClass.bracketed? (Text.trim line.content),
      Section.ofSentinel? (Text.trim line.content) = none →
      n ≠ [] ∧ n ≠ "GLOBAL_FILTER".toList ∧ n ≠ "WORD_GROUPS".toList := by decide
  refine ⟨by decide, toText_ofText_fixed t hcr ?_⟩
  intro line hline s hs htrim hsentinel
  exact hbracketed line hline (Text.trim s)
    (LineClass.bracketed?_eq_some_iff.mpr ⟨s, hs, htrim, rfl⟩) hsentinel

end KeywordList

end Marginalia.Keywords
