import Marginalia.Proofs.Keywords.Coverage

/-!
# Lines keep their place while a list is read

The groups of an assembly, closed or open, account for the lines that were read
so far.  Closing a group, ending a run and numbering it move groups around
without changing their lines, so only three things count: a line that is
skipped, a line that joins the open group, a line that opens one.
-/

namespace Marginalia.Keywords

/-- The group with its lines alone. -/
def Group.bare (g : Group) : Group :=
  ⟨g.kind, g.start, [], none⟩

/-- An open group, as it would be closed. -/
def OpenGroup.closed (g : OpenGroup) : Group :=
  ⟨g.kind.close, g.start, [], none⟩

namespace OpenKind

theorem classes_close_ofClass? {c : LineClass} {kind : OpenKind} (h : ofClass? c = some kind) :
    kind.close.classes = [c] := by
  cases c with
  | name name =>
      obtain rfl : OpenKind.named name [] = kind := by simpa [ofClass?] using h
      rfl
  | arrow pattern target =>
      obtain rfl : OpenKind.aliases [⟨pattern, target⟩] = kind := by simpa [ofClass?] using h
      rfl
  | keyword keyword =>
      obtain rfl : OpenKind.plain [keyword] = kind := by simpa [ofClass?] using h
      rfl
  | blank => simp [ofClass?] at h
  | comment written => simp [ofClass?] at h
  | sentinel opened => simp [ofClass?] at h

theorem classes_close_aliases (items : List Alias) :
    (close (aliases items)).classes =
      items.map fun item => .arrow item.pattern item.target := by
  rcases items with _ | ⟨item, _ | ⟨item', items⟩⟩
  · rfl
  · rfl
  · rfl

theorem classes_close_extend? {c : LineClass} {kind kind' : OpenKind}
    (h : kind.extend? c = some kind') :
    kind'.close.classes = kind.close.classes ++ [c] := by
  cases kind with
  | plain keywords =>
      cases c with
      | keyword keyword =>
          obtain rfl : OpenKind.plain (keywords ++ [keyword]) = kind' := by
            simpa [extend?] using h
          simp [close, GroupKind.classes]
      | _ => simp [extend?] at h
  | named name keywords =>
      cases c with
      | keyword keyword =>
          obtain rfl : OpenKind.named name (keywords ++ [keyword]) = kind' := by
            simpa [extend?] using h
          simp [close, GroupKind.classes]
      | _ => simp [extend?] at h
  | aliases items =>
      cases c with
      | arrow pattern target =>
          obtain rfl : OpenKind.aliases (items ++ [⟨pattern, target⟩]) = kind' := by
            simpa [extend?] using h
          simp [classes_close_aliases]
      | _ => simp [extend?] at h

end OpenKind

namespace Assembly

/-- The groups of an assembly with their lines, the open one at the end. -/
def placed (a : Assembly) : List Group :=
  (a.list.groups ++ a.run).map Group.bare ++ a.leaf.toList.map OpenGroup.closed

variable {a : Assembly}

@[simp] theorem placed_closeLeaf : a.closeLeaf.placed = a.placed := by
  cases hleaf : a.leaf with
  | none => rw [closeLeaf_of_leaf_eq_none hleaf]
  | some g => simp [placed, closeLeaf, hleaf, Group.bare, OpenGroup.closed]

@[simp] theorem placed_flushRun : a.flushRun.placed = a.placed := by
  simp [placed, flushRun, map_numberRun (f := Group.bare) fun _ _ => rfl]

@[simp] theorem placed_waiting (pending : List Text) (gap : Nat) :
    (a.waiting pending gap).placed = a.placed := rfl

theorem placed_begin (h : a.leaf = none) (g : OpenGroup) :
    (a.begin g).placed = a.placed ++ [g.closed] := by
  simp [placed, begin, enter, h]

theorem map_bare_groups_finish : a.finish.groups.map Group.bare = a.placed := by
  rw [← placed_closeLeaf, ← placed_flushRun]
  simp [finish, placed, flushRun]

theorem globalFilter_finish : a.finish.globalFilter = a.list.globalFilter := by
  simp [finish, flushRun]

/-- An assembly accounts for the lines that were read. -/
structure Covers (a : Assembly) (ls : List Line) : Prop where
  groups : AccountsFor ls (groupContent ls) a.placed
  words : a.list.globalFilter = (globalContent ls).map fun l => Text.trim l.content
  opened_iff : a.opened = some .globalFilter ↔ sectionBelow ls = some .globalFilter
  leaf : ∀ g ∈ a.leaf, g.start + g.closed.lineCount = ls.length ∧
    a.opened = some .wordGroups ∧ a.afterSentinel = false

namespace Covers

variable {ls : List Line} {l : Line} {b : Assembly}

/-- A line that is no content ends the open group and leaves the groups. -/
theorem skip (h : a.Covers ls) (hclass : (classOf l).isContent = false)
    (hplaced : b.placed = a.placed) (hwords : b.list.globalFilter = a.list.globalFilter)
    (hopened : b.opened = some .globalFilter ↔
      sectionBelow (ls ++ [l]) = some .globalFilter)
    (hleaf : b.leaf = none) : b.Covers (ls ++ [l]) := by
  constructor
  · rw [hplaced, groupContent_concat_of_not_isContent hclass]
    exact h.groups.skip l
  · rw [hwords, globalContent_concat_of_not_isContent hclass]
    exact h.words
  · exact hopened
  · simp [hleaf]

theorem leaf_eq_none (h : a.Covers ls)
    (hskip : a.opened ≠ some .wordGroups ∨ a.afterSentinel = true) : a.leaf = none := by
  cases hleaf : a.leaf with
  | none => rfl
  | some g =>
      obtain ⟨-, hopened, hafter⟩ := h.leaf g hleaf
      rcases hskip with hskip | hskip
      · exact absurd hopened hskip
      · rw [hafter] at hskip
        cases hskip

theorem pushSentinel (h : a.Covers ls) {opened : Section} (hclass : classOf l = .sentinel opened) :
    (a.pushSentinel opened).Covers (ls ++ [l]) := by
  apply h.skip
  · rw [hclass]
    rfl
  · calc (a.pushSentinel opened).placed
        _ = a.closeLeaf.flushRun.placed := rfl
        _ = a.placed := by rw [placed_flushRun, placed_closeLeaf]
  · simp [Assembly.pushSentinel, flushRun]
  · rw [sectionBelow_concat, Section.below, hclass]
    rfl
  · simp [Assembly.pushSentinel, flushRun]

theorem opened_iff_concat (h : a.Covers ls) (hclass : ∀ opened, classOf l ≠ .sentinel opened) :
    a.opened = some .globalFilter ↔ sectionBelow (ls ++ [l]) = some .globalFilter := by
  have hsame : Section.below (sectionBelow ls) l = sectionBelow ls := by
    unfold Section.below
    split
    · next next hnext => exact absurd hnext (hclass next)
    · rfl
  rw [sectionBelow_concat, hsame]
  exact h.opened_iff

theorem pushBlank (h : a.Covers ls) (hclass : classOf l = .blank) :
    a.pushBlank.Covers (ls ++ [l]) := by
  have hcontent : (classOf l).isContent = false := by
    rw [hclass]
    rfl
  have hopened := h.opened_iff_concat (l := l) (by simp [hclass])
  rcases a.pushBlank_cases with ⟨hskip, hpush⟩ | ⟨-, pending, gap, -, hpush⟩
  · rw [hpush]
    exact h.skip hcontent rfl rfl hopened (h.leaf_eq_none (Or.inl hskip))
  · rw [hpush]
    apply h.skip hcontent
    · rw [placed_waiting, placed_flushRun, placed_closeLeaf]
    · simp [waiting, flushRun]
    · simpa [waiting, flushRun] using hopened
    · simp [waiting, flushRun]

theorem pushComment (h : a.Covers ls) {written : Text} (hclass : classOf l = .comment written) :
    (a.pushComment written).Covers (ls ++ [l]) := by
  have hcontent : (classOf l).isContent = false := by
    rw [hclass]
    rfl
  have hopened := h.opened_iff_concat (l := l) (by simp [hclass])
  rcases a.pushComment_cases written with ⟨hskip, hpush⟩ | ⟨-, pending, gap, -, hpush⟩
  · rw [hpush]
    exact h.skip hcontent rfl rfl hopened (h.leaf_eq_none hskip)
  · rw [hpush]
    apply h.skip hcontent
    · rw [placed_waiting, placed_closeLeaf]
    · simp [waiting]
    · simpa [waiting] using hopened
    · simp [waiting]

theorem pushWord (h : a.Covers ls) (hcontent : (classOf l).isContent = true)
    (hglobal : a.opened = some .globalFilter) :
    (a.pushWord (Text.trim l.content)).Covers (ls ++ [l]) := by
  have hsection := h.opened_iff.mp hglobal
  have hleaf := h.leaf_eq_none (Or.inl (by simp [hglobal]))
  constructor
  · rw [groupContent_concat_of_global hsection]
    exact h.groups.skip l
  · rw [globalContent_concat_of_global hcontent hsection, List.map_append, ← h.words]
    rfl
  · rw [sectionBelow_concat_of_isContent hcontent]
    exact h.opened_iff
  · simp [Assembly.pushWord, hleaf]

theorem ofGroup (h : a.Covers ls) (hcontent : (classOf l).isContent = true)
    (hglobal : a.opened ≠ some .globalFilter)
    (hgroups : AccountsFor (ls ++ [l]) (groupContent ls ++ [l]) b.placed)
    (hwords : b.list.globalFilter = a.list.globalFilter) (hopened : b.opened = some .wordGroups)
    (hafter : b.afterSentinel = false)
    (hleaf : ∀ g ∈ b.leaf, g.start + g.closed.lineCount = ls.length + 1) :
    b.Covers (ls ++ [l]) := by
  have hsection : sectionBelow ls ≠ some .globalFilter := fun hsection =>
    hglobal (h.opened_iff.mpr hsection)
  constructor
  · rwa [groupContent_concat_of_not_global hcontent hsection]
  · rw [hwords, globalContent_concat_of_not_global hsection]
    exact h.words
  · rw [sectionBelow_concat_of_isContent hcontent, hopened]
    simp [hsection]
  · intro g hg
    rw [List.length_append, List.length_singleton]
    exact ⟨hleaf g hg, hopened, hafter⟩

theorem extend (h : a.Covers ls) {g : OpenGroup} {kind : OpenKind}
    (hcontent : (classOf l).isContent = true) (hleaf : a.leaf = some g)
    (hkind : g.kind.extend? (classOf l) = some kind) :
    ({ a.enter with leaf := some { g with kind } } : Assembly).Covers (ls ++ [l]) := by
  obtain ⟨hend, hopened, -⟩ := h.leaf g hleaf
  have hglobal : a.opened ≠ some .globalFilter := by simp [hopened]
  have hclasses := OpenKind.classes_close_extend? hkind
  apply h.ofGroup hcontent hglobal
  · have hgroups := h.groups
    simp only [placed, hleaf, Option.toList_some, List.map_singleton] at hgroups
    exact hgroups.extend hend rfl hclasses
  · rfl
  · simp [enter, hopened]
  · rfl
  · intro g' hg'
    obtain rfl := Option.some.inj hg'
    have hcount := congrArg List.length hclasses
    rw [GroupKind.length_classes, List.length_append, GroupKind.length_classes,
      List.length_singleton] at hcount
    rw [← hend, Nat.add_assoc]
    exact congrArg (g.start + ·) hcount

theorem begin (h : a.Covers ls) {kind : OpenKind} (hindex : l.index = ls.length)
    (hcontent : (classOf l).isContent = true) (hglobal : a.opened ≠ some .globalFilter)
    (hkind : OpenKind.ofClass? (classOf l) = some kind) :
    (a.closeLeaf.begin ⟨l.index, a.pending, kind⟩).Covers (ls ++ [l]) := by
  have hclasses := OpenKind.classes_close_ofClass? hkind
  apply h.ofGroup hcontent hglobal
  · rw [placed_begin a.leaf_closeLeaf, placed_closeLeaf]
    exact h.groups.openBelow hindex hclasses
  · simp [Assembly.begin, enter]
  · exact opened_begin (by simpa using hglobal) _
  · rfl
  · intro g' hg'
    obtain rfl := Option.some.inj hg'
    have hcount := congrArg List.length hclasses
    rw [GroupKind.length_classes, List.length_singleton] at hcount
    rw [← hindex]
    exact congrArg (l.index + ·) hcount

theorem push (h : a.Covers ls) (hindex : l.index = ls.length) : (a.push l).Covers (ls ++ [l]) := by
  rcases LineClass.ofContent_cases l.content with
    ⟨-, hblank⟩ | ⟨opened, -, hsentinel⟩ | ⟨-, hcomment⟩ | hcontent
  · rw [push_blank hblank]
    exact h.pushBlank hblank
  · rw [push_sentinel hsentinel]
    exact h.pushSentinel hsentinel
  · rw [push_comment hcomment]
    exact h.pushComment hcomment
  · have hclass := isContent_classOf_iff.mpr hcontent
    by_cases hglobal : a.opened = some .globalFilter
    · rw [push_word hcontent hglobal]
      exact h.pushWord hclass hglobal
    · rcases push_content_cases hcontent hglobal with
        ⟨g, kind, hleaf, hkind, hpush⟩ | ⟨kind, hkind, -, hpush⟩
      · rw [hpush]
        exact h.extend hclass hleaf hkind
      · rw [hpush]
        exact h.begin hindex hclass hglobal hkind

theorem empty : Assembly.empty.Covers [] := by
  constructor
  · exact ⟨rfl, by simp [placed, Assembly.empty, KeywordList.empty],
      by simp [placed, Assembly.empty, KeywordList.empty], List.Pairwise.nil⟩
  · rfl
  · simp [Assembly.empty, sectionBelow]
  · simp [Assembly.empty]

/-- Lines that are numbered in order are covered by what they are read into. -/
theorem foldl_push (ls : List Line) (h : ∀ (k : Nat) (l : Line), ls[k]? = some l → l.index = k) :
    (ls.foldl Assembly.push Assembly.empty).Covers ls := by
  induction ls using List.reverseRecOn with
  | nil => exact Covers.empty
  | append_singleton ls l ih =>
      have habove := ih fun k m hm => h k m (by
        rw [List.getElem?_append_left (List.getElem?_eq_some_iff.mp hm).1, hm])
      have hindex := h ls.length l (by simp)
      rw [List.foldl_append]
      exact habove.push hindex

end Covers

end Assembly

theorem AccountsFor.of_map_bare {ls content : List Line} {gs : List Group}
    (h : AccountsFor ls content (gs.map Group.bare)) : AccountsFor ls content gs := by
  constructor
  · have hcontent := h.flatMap_linesIn
    rwa [List.flatMap_map] at hcontent
  · intro g hg
    exact h.map_classOf g.bare (List.mem_map_of_mem hg)
  · intro g hg
    exact h.lineCount_pos g.bare (List.mem_map_of_mem hg)
  · exact List.pairwise_map.mp h.pairwise

namespace KeywordList

/-- The groups of a text account for its lines of content outside the global
sections, and the words are those inside. -/
theorem accountsFor_ofText (t : Text) :
    AccountsFor t.lines (groupContent t.lines) (ofText t).groups ∧
      (ofText t).globalFilter = (globalContent t.lines).map fun l => Text.trim l.content := by
  have hcovers := Assembly.Covers.foldl_push t.lines fun k l hl => Text.index_of_getElem? hl
  constructor
  · apply AccountsFor.of_map_bare
    rw [ofText, Assembly.map_bare_groups_finish]
    exact hcovers.groups
  · rw [ofText, Assembly.globalFilter_finish]
    exact hcovers.words

end KeywordList

end Marginalia.Keywords
