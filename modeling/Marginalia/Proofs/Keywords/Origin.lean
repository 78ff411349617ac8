import Marginalia.Proofs.Keywords.Spaced

/-!
# Texts that give canonical lists

A list that was read is canonical when every name in it can be written between
brackets, and also when the text is the one that the list is written as.  In the
first case the names that stand among the groups are those of the list.  In the
second case every line below the second sentinel was written, so a name is read
there only where one was written.
-/

namespace Marginalia.Keywords

/-! ## Lines of groups -/

/-- A line that is read as something other than a name can be read anywhere. -/
theorem isInput_of_readsAs {line : Text} {c : LineClass} (h : ReadsAs line c)
    (hc : ∀ n, c ≠ .name n) : IsInput line :=
  ⟨h.isLine.1, fun n hn => absurd (h.ofContent_eq.symm.trans hn) (hc n)⟩

theorem isInput_of_isNote {line : Text} (h : IsNote line) : IsInput line := by
  rcases h with rfl | h
  · refine ⟨by simp, fun n hn => ?_⟩
    have hblank : LineClass.ofContent [] = .blank := by decide
    rw [hblank] at hn
    cases hn
  · exact isInput_of_readsAs h (by simp)

/-- Where a name is written between brackets, no other name is read. -/
theorem isInput_bracketed {content n : Text} (hlf : '\n' ∉ content)
    (h : LineClass.ofContent content = .name n) :
    IsInput ('[' :: (n ++ [']'])) ∧ Text.IsLine ('[' :: (n ++ [']'])) := by
  obtain ⟨-, hname⟩ := LineClass.ofContent_eq_name_iff.mp h
  obtain ⟨s, hs, htrim, rfl⟩ := LineClass.bracketed?_eq_some_iff.mp hname
  have hbare := bare_bracketed (Text.trim s)
  have hline : '\n' ∉ '[' :: (Text.trim s ++ [']']) := by
    intro hmem
    apply hlf
    apply Text.mem_of_mem_trim
    rw [htrim]
    simp only [List.mem_cons, List.mem_append] at hmem ⊢
    rcases hmem with hc | hmem | hc
    · exact Or.inl hc
    · exact Or.inr (Or.inl (Text.mem_of_mem_trim hmem))
    · exact Or.inr (Or.inr hc)
  refine ⟨⟨hline, fun m hm => ?_⟩, isLine_of_not_white hline hbare.2⟩
  obtain ⟨hgroup, rfl⟩ := isGroupName_of_bracketed hm
  rwa [Text.trim_trim]

/-- A group has a name, or all of its lines are read back. -/
theorem GroupKind.isInput_of_mem_lines {kind : GroupKind}
    (h : ∀ c ∈ kind.classes, ∃ content, '\n' ∉ content ∧ LineClass.ofContent content = c) :
    ∀ line ∈ kind.lines, IsInput line ∧ Text.IsLine line := by
  have hkeyword : ∀ k, .keyword k ∈ kind.classes → IsInput k ∧ Text.IsLine k := by
    intro k hk
    obtain ⟨content, hlf, hclass⟩ := h _ hk
    have hread := readsAs_keyword hlf hclass
    exact ⟨isInput_of_readsAs hread (by simp), hread.isLine⟩
  have halias : ∀ a : Alias, .arrow a.pattern a.target ∈ kind.classes →
      IsInput a.line ∧ Text.IsLine a.line := by
    intro a ha
    obtain ⟨content, hlf, hclass⟩ := h _ ha
    have hread := readsAs_arrow hlf hclass
    exact ⟨isInput_of_readsAs hread (by simp), hread.isLine⟩
  cases kind with
  | plain keywords => exact fun line hline => hkeyword line (List.mem_map_of_mem hline)
  | named name keywords =>
      refine List.forall_mem_cons.mpr ⟨?_, fun line hline => hkeyword line ?_⟩
      · obtain ⟨content, hlf, hclass⟩ := h (.name name) (by simp [classes])
        exact isInput_bracketed hlf hclass
      · exact List.mem_cons_of_mem _ (List.mem_map_of_mem hline)
  | single item => exact List.forall_mem_singleton.mpr (halias item (by simp [classes]))
  | cluster items =>
      intro line hline
      obtain ⟨a, ha, rfl⟩ := List.mem_map.mp hline
      exact halias a (List.mem_map.mpr ⟨a, ha, rfl⟩)

namespace Assembly

/-- Below the second sentinel no run has ended, and nothing waits. -/
theorem place_underWordGroups {words : List Text} (h : ∀ w ∈ words, IsWord w) :
    Holds (underWordGroups words) [] ∧ Place (underWordGroups words) [] := by
  refine ⟨⟨rfl, rfl, h, rfl, by simp [underWordGroups, empty]⟩, ?_⟩
  refine .between rfl rfl Group.canonical_nil ?_ ?_ ?_ ?_
  · simp [underWordGroups, empty]
  · simp [underWordGroups, empty]
  · simp
  · simp

end Assembly

namespace Assembly

/-- Lines lead to a place when the names among the groups can be written between
brackets. -/
theorem exists_place (ls : List Line)
    (hindex : ∀ (k : Nat) (l : Line), ls[k]? = some l → l.index = k)
    (hlf : ∀ l ∈ ls, '\n' ∉ l.content)
    (hname : ∀ l ∈ groupContent ls, ∀ n, classOf l = .name n → IsGroupName n) :
    ∃ runs, Holds (ls.foldl push empty).unplaced runs ∧
      Place (ls.foldl push empty).unplaced runs := by
  induction ls using List.reverseRecOn with
  | nil => exact ⟨[], place_empty⟩
  | append_singleton ls l ih =>
      have hindex' : ∀ (k : Nat) (m : Line), ls[k]? = some m → m.index = k := fun k m hm =>
        hindex k m (by rw [List.getElem?_append_left (List.getElem?_eq_some_iff.mp hm).1, hm])
      obtain ⟨hlf', hlast⟩ := List.forall_mem_append.mp hlf
      have hline := hlast l (List.mem_singleton_self l)
      obtain ⟨runs, hholds, hplace⟩ := ih hindex' hlf' fun m hm => hname m (by
        rw [groupContent, contentIn_concat]
        exact List.mem_append_left _ hm)
      have hopened := (Covers.foldl_push ls hindex').opened_iff
      rw [List.foldl_concat, unplaced_push]
      by_cases hword : (ls.foldl push empty).opened = some .globalFilter ∧
          LineClass.IsContent (Text.trim l.content)
      · -- in the global section a name is a word like any other line
        have hglobal : (ls.foldl push empty).unplaced.opened = some .globalFilter := hword.1
        rw [pushContent_word hword.2 hglobal]
        exact ⟨runs, hplace.pushWord hholds hglobal (isWord_trim hline hword.2)⟩
      · refine hplace.pushContent hholds ⟨hline, fun n hn => ?_⟩
        have hcontent := LineClass.isContent_iff.mpr (Or.inl ⟨n, hn⟩)
        have hglobal : sectionBelow ls ≠ some .globalFilter := fun hglobal =>
          hword ⟨hopened.mpr hglobal, hcontent⟩
        apply hname l _ n hn
        rw [groupContent_concat_of_not_global (isContent_classOf_iff.mpr hcontent) hglobal]
        simp

end Assembly

/-- A line without a line feed that is read back as it is written holds no
carriage return at its end. -/
theorem isLine_of_readLine_eq {line : Text} (hlf : '\n' ∉ line) (h : Text.readLine line = line) :
    Text.IsLine line := by
  refine ⟨hlf, fun hcr => ?_⟩
  obtain ⟨front, rfl⟩ := List.getLast?_eq_some_iff.mp hcr
  rw [Text.readLine_concat_cr] at h
  simp at h

namespace KeywordList

theorem inside_unplaced (l : KeywordList) : l.unplaced.inside = l.inside := by
  have hlines := lines_unplaced l ⟨[], [], []⟩
  rw [lines_eq, lines_eq] at hlines
  exact List.append_cancel_left hlines

/-- Every line of a group that was read stood in the text. -/
theorem exists_content_of_mem_classes {t : Text} {g : Group} (hg : g ∈ (ofText t).groups)
    {c : LineClass} (hc : c ∈ g.kind.classes) :
    ∃ content, '\n' ∉ content ∧ LineClass.ofContent content = c := by
  rw [← (accountsFor_ofText t).1.map_classOf g hg] at hc
  obtain ⟨l, hl, rfl⟩ := List.mem_map.mp hc
  have hmem : l ∈ t.lines := List.mem_of_mem_drop (List.mem_of_mem_take hl)
  exact ⟨l.content, Text.not_mem_content_of_mem_lines hmem, rfl⟩

/-- The lines below the second sentinel are read as what they were written for,
apart from names. -/
theorem isInput_of_mem_inside (t : Text) :
    ∀ line ∈ (ofText t).inside, IsInput line ∧ Text.IsLine line := by
  obtain ⟨-, hcomments, htrailing⟩ := keeps_ofText t
  have hnote : ∀ c, IsNote c → IsInput c ∧ Text.IsLine c := fun c hc =>
    ⟨isInput_of_isNote hc, (isInside_of_isNote hc).1⟩
  apply forall_mem_inside
  · exact hnote [] (Or.inl rfl)
  · exact fun g hg c hc => hnote c (hcomments g hg c hc)
  · exact fun g hg => GroupKind.isInput_of_mem_lines fun c hc => exists_content_of_mem_classes hg hc
  · exact fun c hc => hnote c (htrailing c hc)

theorem exists_named_of_mem_groupContent {t : Text} {l : Line} {n : Text}
    (hl : l ∈ groupContent t.lines) (hn : classOf l = .name n) :
    ∃ g ∈ (ofText t).groups, ∃ keywords, g.kind = .named n keywords := by
  have haccounts := (accountsFor_ofText t).1
  rw [← haccounts.flatMap_linesIn] at hl
  obtain ⟨g, hg, hl⟩ := List.mem_flatMap.mp hl
  have hclass : .name n ∈ g.kind.classes := by
    rw [← haccounts.map_classOf g hg, ← hn]
    exact List.mem_map_of_mem hl
  refine ⟨g, hg, ?_⟩
  cases hkind : g.kind with
  | named name keywords =>
      rw [hkind] at hclass
      obtain rfl : n = name := by simpa [GroupKind.classes] using hclass
      exact ⟨keywords, rfl⟩
  | plain keywords => simp [hkind, GroupKind.classes] at hclass
  | single item => simp [hkind, GroupKind.classes] at hclass
  | cluster items => simp [hkind, GroupKind.classes] at hclass

/-- A list whose names can be written between brackets is canonical. -/
theorem canonical_ofText_of_isGroupName {t : Text}
    (h : ∀ g ∈ (ofText t).groups, ∀ n keywords, g.kind = .named n keywords → IsGroupName n) :
    (ofText t).unplaced.Canonical := by
  obtain ⟨runs, hholds, hplace⟩ := Assembly.exists_place t.lines
    (fun k l hl => Text.index_of_getElem? hl)
    (fun l hl => Text.not_mem_content_of_mem_lines hl) fun l hl n hn => by
      obtain ⟨g, hg, keywords, hkind⟩ := exists_named_of_mem_groupContent hl hn
      exact h g hg n keywords hkind
  rw [ofText, Assembly.unplaced_finish]
  exact hplace.finish hholds

theorem canonical_ofText_of_isWritable {t : Text}
    (h : ∀ g ∈ (ofText t).groups, g.kind.isWritable = true) : (ofText t).unplaced.Canonical := by
  apply canonical_ofText_of_isGroupName
  intro g hg n keywords hkind
  have hreadable := GroupKind.readable_of_isWritable (h g hg)
  rw [hkind] at hreadable
  exact (isGroupName_of_bracketed hreadable.1.ofContent_eq).1

/-- What is read of the lines below the second sentinel is canonical when no
name there is lost. -/
theorem canonical_finish_read {words inside : List Text} (hwords : ∀ w ∈ words, IsWord w)
    (hinside : ∀ line ∈ inside, IsInput line) :
    ((Assembly.underWordGroups words).read inside).finish.Canonical := by
  obtain ⟨hholds, hplace⟩ := Assembly.place_underWordGroups hwords
  obtain ⟨runs, hholds', hplace'⟩ := hplace.read hholds hinside
  exact hplace'.finish hholds'

/-- A text that is written as itself gives a canonical list in a canonical
layout. -/
theorem canonical_of_toText_eq {t : Text} (ht : (ofText t).toText (some t) = t) :
    (ofText t).unplaced.Canonical ∧ (Layout.ofText t).Canonical := by
  have hwords := (keeps_ofText t).1
  have hlines := isInput_of_mem_inside t
  have hy := copies_layout t
  have hread := unplaced_ofText_toText hwords (fun line hline => (hlines line hline).2) t
  have hcontent := map_content_unlines hwords (fun line hline => (hlines line hline).2) hy
  have htext : unlines ((ofText t).lines (Layout.ofText t)) = t := ht
  rw [ht] at hread
  rw [htext] at hcontent
  have hcanonical : (ofText t).unplaced.Canonical := by
    rw [hread]
    exact canonical_finish_read hwords fun line hline => (hlines line hline).1
  have hinside : ∀ line ∈ (ofText t).inside, IsInside line := by
    rw [← inside_unplaced]
    exact isInside_of_mem_inside hcanonical
  have hlayout : Layout.ofText t = (Layout.ofText t).reread := by
    have hcopied := Layout.read_lines (Layout.copies_reread hy) hwords hinside
      (head?_inside (ofText t))
    rw [← lines_eq, ← hcontent, ← Layout.ofText_eq_read] at hcopied
    exact hcopied
  refine ⟨hcanonical, ?_⟩
  refine ⟨fun line hline => ⟨?_, (hy.header line hline).2⟩, hy.globalComments, hy.groupsComments⟩
  have hheader : (Layout.ofText t).header.map id = (Layout.ofText t).header.map Text.readLine := by
    rw [List.map_id]
    exact congrArg Layout.header hlayout
  have hsame := List.map_inj_left.mp hheader line hline
  exact isLine_of_readLine_eq (hy.header line hline).1 hsame.symm

end KeywordList

end Marginalia.Keywords
