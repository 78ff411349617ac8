import Marginalia.Proofs.Keywords.Neighbours

/-!
# Groups that are taken from their place

When a group is removed or moved, the groups above and below it become
neighbours.  If both were in its run, the serializer puts no blank line between
them, and they are read back as one group unless a comment or their shapes keep
them apart.  In every other case the edited groups are read back one by one, and
the words are always read back.
-/

namespace Marginalia.Keywords

theorem trim_readLine (line : Text) : Text.trim (Text.readLine line) = Text.trim line := by
  rcases Text.readLine_cases line with hsame | hcr
  · rw [hsame]
  · rw [← Text.trim_trimEnd line, hcr, Text.trimEnd_concat_of_white (by decide), ← hcr,
      Text.trim_trimEnd]

theorem not_mem_readLine {line : Text} (h : '\n' ∉ line) : '\n' ∉ Text.readLine line := by
  rcases Text.readLine_cases line with hsame | hcr
  · rwa [hsame]
  · intro hmem
    apply h
    rw [hcr]
    exact List.mem_append_left _ hmem

namespace Layout

/-- The layout with its header as it is read when it was written. -/
def reread (y : Layout) : Layout :=
  { y with header := y.header.map Text.readLine }

theorem copies_reread {y : Layout} (h : y.Copies ('\n' ∉ ·)) : y.reread.Copies ('\n' ∉ ·) := by
  refine ⟨?_, h.globalComments, h.groupsComments⟩
  intro line hline
  obtain ⟨written, hwritten, rfl⟩ := List.mem_map.mp hline
  obtain ⟨hlf, hskipped⟩ := h.header written hwritten
  exact ⟨not_mem_readLine hlf, by rwa [trim_readLine]⟩

end Layout

namespace KeywordList

variable {l : KeywordList}

theorem forall_mem_block {P : Text → Prop} (hblank : P []) {cs : List Text} {g : Group}
    {next : Option Group} (hcs : ∀ c ∈ cs, P c) (hg : ∀ line ∈ g.kind.lines, P line) :
    ∀ line ∈ g.block cs next, P line := by
  intro line hline
  rw [Group.block, List.mem_append, List.mem_append] at hline
  rcases hline with (hline | hline) | hline
  · exact hcs line hline
  · exact hg line hline
  · split at hline
    · rwa [List.mem_singleton.mp hline]
    · cases hline

theorem forall_mem_blocks {P : Text → Prop} (hblank : P []) {gs : List Group}
    (hcomments : ∀ g ∈ gs, ∀ c ∈ g.comments, P c)
    (hlines : ∀ g ∈ gs, ∀ line ∈ g.kind.lines, P line) : ∀ line ∈ Group.blocks gs, P line := by
  induction gs with
  | nil => simp [Group.blocks]
  | cons g gs ih =>
      intro line hline
      rw [Group.blocks, List.mem_append] at hline
      rcases hline with hline | hline
      · exact forall_mem_block hblank (hcomments g (by simp)) (hlines g (by simp)) line hline
      · exact ih (fun g' hg' => hcomments g' (by simp [hg']))
          (fun g' hg' => hlines g' (by simp [hg'])) line hline

/-- What holds of a blank line, of comments and of the lines of groups holds of
all lines below the second sentinel. -/
theorem forall_mem_inside {P : Text → Prop} (hblank : P [])
    (hcomments : ∀ g ∈ l.groups, ∀ c ∈ g.comments, P c)
    (hlines : ∀ g ∈ l.groups, ∀ line ∈ g.kind.lines, P line) (htrailing : ∀ c ∈ l.trailing, P c) :
    ∀ line ∈ l.inside, P line := by
  intro line hline
  rw [inside, List.mem_append, List.mem_append] at hline
  rcases hline with (hline | hline) | hline
  · split at hline
    · cases hline
    · rwa [List.mem_singleton.mp hline]
  · unfold groupLines at hline
    split at hline
    · cases hline
    · next g gs hl =>
        rw [hl] at hcomments hlines
        obtain ⟨hg, hgs⟩ := List.forall_mem_cons.mp hcomments
        rw [List.mem_append] at hline
        rcases hline with hline | hline
        · exact forall_mem_block hblank (fun c hc => hg c ((List.dropWhile_suffix _).subset hc))
            (hlines g (by simp)) line hline
        · exact forall_mem_blocks hblank hgs (fun g' hg' => hlines g' (by simp [hg'])) line hline
  · exact htrailing line hline

theorem Writable.isInside_of_mem_inside (h : l.Writable) : ∀ line ∈ l.inside, IsInside line :=
  forall_mem_inside isInside_nil
    (fun g hg c hc => isInside_of_isNote ((h.groups g hg).comments c hc))
    (fun g hg => Group.isInside_of_mem_lines (h.groups g hg).kind)
    fun c hc => isInside_of_isNote (h.trailing c hc)

theorem globalFilter_unplaced (l : KeywordList) : l.unplaced.globalFilter = l.globalFilter := rfl

theorem trailing_unplaced (l : KeywordList) : l.unplaced.trailing = l.trailing := rfl

theorem map_kind_unplaced (l : KeywordList) :
    l.unplaced.groups.map Group.kind = l.groups.map Group.kind := by
  rw [unplaced, List.map_map]
  rfl

theorem map_content_unlines (hwords : ∀ w ∈ l.globalFilter, IsWord w)
    (hinside : ∀ line ∈ l.inside, Text.IsLine line) {y : Layout} (hy : y.Copies ('\n' ∉ ·)) :
    (Text.lines (unlines (l.lines y))).map Line.content = l.lines y.reread := by
  have hother : ∀ line ∈ [Section.globalFilter.sentinel] ++ y.globalComments ++
      (l.globalFilter ++ [[]]) ++ [Section.wordGroups.sentinel] ++ y.groupsComments ++ l.inside,
      Text.IsLine line := by
    intro line hline
    simp only [List.mem_append, List.mem_singleton] at hline
    rcases hline with ((((rfl | hline) | (hline | rfl)) | rfl) | hline) | hline
    · exact isLine_sentinel .globalFilter
    · exact (hy.globalComments line hline).isLine
    · exact (hwords line hline).isLine
    · exact isInside_nil.1
    · exact isLine_sentinel .wordGroups
    · exact (hy.groupsComments line hline).isLine
    · exact hinside line hline
  have hlines : ∀ z : Layout, z.globalComments = y.globalComments →
      z.groupsComments = y.groupsComments →
      l.lines z = z.header ++ ([Section.globalFilter.sentinel] ++ y.globalComments ++
        (l.globalFilter ++ [[]]) ++ [Section.wordGroups.sentinel] ++ y.groupsComments ++
          l.inside) := by
    intro z hglobal hgroups
    simp only [lines_eq, hglobal, hgroups, List.append_assoc]
  rw [hlines y rfl rfl, hlines y.reread rfl rfl, unlines, Text.map_content_lines_flatMap_of_not_mem,
    List.map_append, List.map_congr_left fun line hline => Text.readLine_of_isLine
      (hother line hline), List.map_id']
  · rfl
  · intro line hline
    rcases List.mem_append.mp hline with hline | hline
    · exact (hy.header line hline).1
    · exact (hother line hline).1

theorem copies_layout (t : Text) : (Layout.ofText t).Copies ('\n' ∉ ·) := by
  rw [Layout.ofText_eq_read]
  apply Layout.copies_read
  intro content hcontent
  obtain ⟨line, hline, rfl⟩ := List.mem_map.mp hcontent
  have hlf := Text.not_mem_content_of_mem_lines hline
  exact ⟨hlf, hlf⟩

/-- A list that was written is read from its words and the lines below the
second sentinel. -/
theorem unplaced_ofText_lines (hwords : ∀ w ∈ l.globalFilter, IsWord w)
    (hinside : ∀ line ∈ l.inside, Text.IsLine line) {y : Layout} (hy : y.Copies ('\n' ∉ ·)) :
    (ofText (unlines (l.lines y))).unplaced =
      ((Assembly.underWordGroups l.globalFilter).read l.inside).finish := by
  rw [unplaced_ofText, map_content_unlines hwords hinside hy, lines_eq, Assembly.read_append,
    Assembly.read_above (Layout.copies_reread hy) hwords]

theorem unplaced_ofText_toText (hwords : ∀ w ∈ l.globalFilter, IsWord w)
    (hinside : ∀ line ∈ l.inside, Text.IsLine line) (t : Text) :
    (ofText (l.toText (some t))).unplaced =
      ((Assembly.underWordGroups l.globalFilter).read l.inside).finish :=
  unplaced_ofText_lines hwords hinside (copies_layout t)

/-- A list that can be written gives its words back, and its groups exactly when
they are separate. -/
theorem Writable.ofText_toText (h : l.Writable) (t : Text) :
    (ofText (l.toText (some t))).globalFilter = l.globalFilter ∧
      ((ofText (l.toText (some t))).groups.map Group.kind = l.groups.map Group.kind ↔
        l.Separate) := by
  have hread := unplaced_ofText_toText h.words
    (fun line hline => (h.isInside_of_mem_inside line hline).1) t
  obtain ⟨hwords, hkinds⟩ := h.read_inside
  constructor
  · rw [← globalFilter_unplaced, hread, Assembly.globalFilter_finish, hwords]
  · rw [← map_kind_unplaced, hread, Assembly.map_kind_groups_finish]
    exact hkinds

/-- After a group was taken from its place the words of the text are those of
the list, and its groups are those of the list exactly when the groups above and
below the old place do not fuse. -/
theorem ofText_toText_of_displaces {t : Text} {e : KeywordEdit} {l : KeywordList}
    (hwritable : ∀ g ∈ (ofText t).groups, g.kind.isWritable = true)
    (he : e.Displaces (ofText t)) (hl : e.run? (ofText t) = some l) :
    (ofText (l.toText (some t))).globalFilter = l.globalFilter ∧
      ((ofText (l.toText (some t))).groups.map Group.kind = l.groups.map Group.kind ↔
        ¬e.Fuses (ofText t)) := by
  have hl' : l.Writable := writable_run? (writable_ofText hwritable) he.keepsWords hl
  obtain ⟨hwords, hgroups⟩ := hl'.ofText_toText t
  exact ⟨hwords, hgroups.trans (separate_run?_iff he hl)⟩

/-- Without the alias between them two groups of a run are still read back as
two, because the second one has a name. -/
theorem ofText_toText_of_displaces_named :
    let t : Text := "[GLOBAL_FILTER]\nw\n\n[WORD_GROUPS]\n\nA\nx => y\n[N]\nB\n\n".toList
    ∃ l, (KeywordEdit.removeGroup 1).run? (ofText t) = some l ∧
      (ofText (l.toText (some t))).globalFilter = [['w']] ∧
      (ofText (l.toText (some t))).groups.map Group.kind =
        [.plain [['A']], .named ['N'] [['B']]] := by
  intro t
  have hwritable : ∀ g ∈ (ofText t).groups, g.kind.isWritable = true := by decide
  obtain ⟨l, hl, hwords, hkinds⟩ :
      ∃ l, (KeywordEdit.removeGroup 1).run? (ofText t) = some l ∧ l.globalFilter = [['w']] ∧
        l.groups.map Group.kind = [.plain [['A']], .named ['N'] [['B']]] :=
    ⟨_, rfl, by decide, by decide⟩
  have hdisplaces : (KeywordEdit.removeGroup 1).Displaces (ofText t) := trivial
  have hfuses : ¬(KeywordEdit.removeGroup 1).Fuses (ofText t) := by
    have happart : ¬Group.FuseAround (ofText t).groups 1 := by decide
    exact fun hfuses => happart hfuses.2
  obtain ⟨hfilter, hgroups⟩ := ofText_toText_of_displaces hwritable hdisplaces hl
  exact ⟨l, hl, hfilter.trans hwords, (hgroups.mpr hfuses).trans hkinds⟩

/-- Two groups of keywords without a name are read back as one. -/
theorem merged_after_removal :
    let t : Text := "[GLOBAL_FILTER]\n\n[WORD_GROUPS]\n\nA\nx => y\nB\n\n".toList
    (∀ g ∈ (ofText t).groups, g.kind.isWritable = true) ∧
      ∃ l, (KeywordEdit.removeGroup 1).run? (ofText t) = some l ∧
        l.groups.map Group.kind = [.plain [['A']], .plain [['B']]] ∧
        (ofText (l.toText (some t))).groups.map Group.kind = [.plain [['A'], ['B']]] := by
  intro t
  exact ⟨by decide, _, rfl, by decide, by decide⟩

end KeywordList

end Marginalia.Keywords
