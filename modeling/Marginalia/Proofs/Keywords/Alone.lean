import Marginalia.Proofs.Keywords.Origin

/-!
# A group alone

A group can be written when it is read back alone: under the banner, as the only
group of a list without words and without comments.  What is checked of a group
looks at its lines one by one, and the check is exact.  A line that does not
read back gives another text, another group, or joins what stands beside it.
Only a carriage return is refused although a text may hold one.
-/

namespace Marginalia.Keywords

namespace GroupKind

def texts : GroupKind → List Text
  | plain keywords => keywords
  | named name keywords => name :: keywords
  | single item => [item.pattern, item.target]
  | cluster items => items.flatMap fun a => [a.pattern, a.target]

end GroupKind

theorem readsBack_of_readsAs {line : Text} {c : LineClass} (h : ReadsAs line c)
    (hcr : '\r' ∉ line) : readsBack line c = true := by
  have hlf := h.isLine.1
  simp only [readsBack, Bool.and_eq_true, Bool.not_eq_true', List.any_eq_false, beq_iff_eq,
    Bool.or_eq_true, not_or]
  refine ⟨fun d hd => ⟨?_, ?_⟩, h.ofContent_eq⟩
  · rintro rfl
    exact hlf hd
  · rintro rfl
    exact hcr hd

namespace GroupKind

/-- What is checked of a group is that its lines are read back, and that they
hold no carriage return. -/
theorem isWritable_iff_readable {kind : GroupKind} (hcr : ∀ s ∈ kind.texts, '\r' ∉ s) :
    kind.isWritable = true ↔ kind.Readable := by
  refine ⟨readable_of_isWritable, fun h => ?_⟩
  cases kind with
  | plain keywords =>
      obtain ⟨hne, hread⟩ := h
      simp only [isWritable, Bool.and_eq_true, Bool.not_eq_true', List.isEmpty_eq_false_iff,
        List.all_eq_true]
      exact ⟨hne, fun k hk => readsBack_of_readsAs (hread k hk) (hcr k hk)⟩
  | named name keywords =>
      obtain ⟨hname, hread⟩ := h
      obtain ⟨hcrName, hcr⟩ := List.forall_mem_cons.mp hcr
      simp only [isWritable, Bool.and_eq_true, List.all_eq_true]
      refine ⟨readsBack_of_readsAs hname ?_, fun k hk =>
        readsBack_of_readsAs (hread k hk) (hcr k hk)⟩
      simp [hcrName]
  | single item =>
      have hline := Alias.not_mem_line (by decide) (hcr item.pattern (by simp [texts]))
        (hcr item.target (by simp [texts]))
      exact readsBack_of_readsAs h hline
  | cluster items =>
      obtain ⟨hlength, hread⟩ := h
      simp only [isWritable, Bool.and_eq_true, decide_eq_true_eq, List.all_eq_true]
      refine ⟨hlength, fun a ha => readsBack_of_readsAs (hread a ha) ?_⟩
      have hmem : ∀ s ∈ [a.pattern, a.target], '\r' ∉ s := fun s hs =>
        hcr s (List.mem_flatMap.mpr ⟨a, ha, hs⟩)
      exact Alias.not_mem_line (by decide) (hmem a.pattern (by simp)) (hmem a.target (by simp))

end GroupKind

/-- Without an earlier text the banner is written, which is no part of a
list. -/
theorem Layout.canonical_fresh : Layout.fresh.Canonical := by
  refine ⟨?_, by simp [fresh], by simp [fresh]⟩
  have hbanner : ∀ line ∈ banner, ('\n' ∉ line ∧ line.getLast? ≠ some '\r') ∧
      (Text.trim line = [] ∨ (Text.trim line).head? = some '#') := by decide +kernel
  exact hbanner

namespace KeywordList

def alone (kind : GroupKind) : KeywordList :=
  ⟨[], [.ofKind kind], []⟩

theorem inside_alone (kind : GroupKind) : (alone kind).inside = [[]] ++ kind.lines ++ [[]] := by
  simp [inside, alone, groupLines, Group.block, Group.blocks, Group.ofKind, Group.blankAfter]

theorem canonical_alone {kind : GroupKind} (h : kind.Readable) : (alone kind).Canonical := by
  have hrun : Group.IsRun [.ofKind kind] :=
    ⟨by simp, by simpa [Group.ofKind] using ⟨h, by simp⟩, by simp [Group.Fresh, Group.ofKind],
      List.isChain_singleton _⟩
  refine ⟨by simp [alone], [[.ofKind kind]], ?_, rfl, ?_⟩
  · exact ⟨by simpa using hrun, List.isChain_singleton _, by simp [Group.StartsList, Group.ofKind]⟩
  · exact ⟨by simp [alone], by simp, by simp [alone]⟩

theorem readable_of_ofText_toText_alone {kind : GroupKind}
    (h : (ofText ((alone kind).toText none)).groups.map Group.kind = [kind]) : kind.Readable := by
  obtain ⟨g, hg, hkind⟩ : ∃ g ∈ (ofText ((alone kind).toText none)).groups, g.kind = kind := by
    rw [← List.mem_map, h]
    exact List.mem_singleton_self kind
  -- the lines of the group stood in the text, so no name among them is lost
  have hlines := GroupKind.isInput_of_mem_lines fun c hc => exists_content_of_mem_classes hg hc
  rw [hkind] at hlines
  have hinside : ∀ line ∈ (alone kind).inside, IsInput line ∧ Text.IsLine line := by
    have hblank : IsInput [] ∧ Text.IsLine [] := ⟨isInput_of_isNote (Or.inl rfl), isInside_nil.1⟩
    rw [inside_alone, List.forall_mem_append, List.forall_mem_append]
    exact ⟨⟨List.forall_mem_singleton.mpr hblank, hlines⟩, List.forall_mem_singleton.mpr hblank⟩
  have hwords : ∀ w ∈ (alone kind).globalFilter, IsWord w := by simp [alone]
  have hcopies : Layout.fresh.Copies ('\n' ∉ ·) :=
    ⟨fun line hline => (Layout.canonical_fresh.header line hline).imp_left And.left,
      Layout.canonical_fresh.globalComments, Layout.canonical_fresh.groupsComments⟩
  have hcanonical : (ofText ((alone kind).toText none)).unplaced.Canonical := by
    have hread := unplaced_ofText_lines hwords (fun line hline => (hinside line hline).2) hcopies
    rw [toText, Option.map_none, Option.getD_none, hread]
    exact canonical_finish_read hwords fun line hline => (hinside line hline).1
  rw [← hkind]
  exact ((writable_spaced_of_unplaced hcanonical).1.groups g hg).kind

/-- A group whose lines are read back is read back alone. -/
theorem ofText_toText_alone {kind : GroupKind} (h : kind.Readable) :
    (ofText ((alone kind).toText none)).groups.map Group.kind = [kind] ∧
      (ofText ((alone kind).toText none)).globalFilter = [] ∧
      (ofText ((alone kind).toText none)).trailing = [] := by
  have hread : (ofText ((alone kind).toText none)).unplaced = alone kind :=
    (unplaced_ofText_unlines (canonical_alone h) Layout.canonical_fresh).1
  rw [← map_kind_unplaced (ofText _), ← globalFilter_unplaced (ofText _),
    ← trailing_unplaced (ofText _), hread]
  exact ⟨rfl, rfl, rfl⟩

/-- A group without carriage returns can be written exactly when it is read back
alone. -/
theorem isWritable_iff_ofText_toText_alone {kind : GroupKind}
    (hcr : ∀ s ∈ kind.texts, '\r' ∉ s) :
    kind.isWritable = true ↔
      (ofText ((alone kind).toText none)).groups.map Group.kind = [kind] ∧
        (ofText ((alone kind).toText none)).globalFilter = [] ∧
        (ofText ((alone kind).toText none)).trailing = [] := by
  rw [kind.isWritable_iff_readable hcr]
  exact ⟨ofText_toText_alone, fun h => readable_of_ofText_toText_alone h.1⟩

/-- Of two groups with the same lines the one that splits them at their first
arrow is read back. -/
theorem isWritable_iff_ofText_toText_alone_arrows :
    let first : GroupKind := .cluster [⟨"a".toList, "b => c".toList⟩, ⟨"d".toList, "e".toList⟩]
    let second : GroupKind := .cluster [⟨"a => b".toList, "c".toList⟩, ⟨"d".toList, "e".toList⟩]
    first.lines = second.lines ∧
      (ofText ((alone first).toText none)).groups.map Group.kind = [first] ∧
      ¬((ofText ((alone second).toText none)).groups.map Group.kind = [second] ∧
        (ofText ((alone second).toText none)).globalFilter = [] ∧
        (ofText ((alone second).toText none)).trailing = []) := by
  intro first second
  have hfirst : ∀ s ∈ first.texts, '\r' ∉ s := by decide
  have hsecond : ∀ s ∈ second.texts, '\r' ∉ s := by decide
  have hwritable : first.isWritable = true := by decide
  have hnot : second.isWritable ≠ true := by decide
  exact ⟨by decide, ((isWritable_iff_ofText_toText_alone hfirst).mp hwritable).1,
    (isWritable_iff_ofText_toText_alone hsecond).not.mp hnot⟩

end KeywordList

end Marginalia.Keywords
