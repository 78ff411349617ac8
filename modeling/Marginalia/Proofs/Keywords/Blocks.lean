import Marginalia.Proofs.Keywords.Canonical
import Marginalia.Proofs.Keywords.Kept
import Marginalia.Proofs.Keywords.Placed

/-!
# Reading groups in any order

A list that was edited need not be one that a text gives: two groups can be
written one directly below the other although the second one does not open below
the first.  Then its lines join the group above.  Otherwise every group is read
back as it was written, whatever comments stand between and whichever runs the
groups are in.
-/

namespace Marginalia.Keywords

/-- Two groups are read as one: nothing is written between them, and the second
one does not open below the first. -/
def Group.Merges (above below : Group) : Prop :=
  below.comments = [] ∧ above.blankAfter (some below) = false ∧
    ¬above.kind.OpensBelow below.kind

instance (above below : GroupKind) : Decidable (above.OpensBelow below) :=
  match below with
  | .named name keywords => isTrue (Or.inl ⟨name, keywords, rfl⟩)
  | .plain keywords => decidable_of_iff (above.isAliases ≠ (GroupKind.plain keywords).isAliases)
      (by simp [GroupKind.OpensBelow])
  | .single item => decidable_of_iff (above.isAliases ≠ (GroupKind.single item).isAliases)
      (by simp [GroupKind.OpensBelow])
  | .cluster items => decidable_of_iff (above.isAliases ≠ (GroupKind.cluster items).isAliases)
      (by simp [GroupKind.OpensBelow])

instance (above below : Group) : Decidable (above.Merges below) :=
  inferInstanceAs (Decidable (_ ∧ _ ∧ ¬_))

namespace OpenKind

theorem toOpen_close (kind : OpenKind) : kind.close.toOpen = kind := by
  cases kind with
  | plain keywords => rfl
  | named name keywords => rfl
  | aliases items => rcases items with _ | ⟨item, _ | ⟨item', items⟩⟩ <;> rfl

/-- The lines of a group that does not open below an open group join it. -/
theorem exists_extendAll?_of_not_opensBelow {above : OpenKind} {kind : GroupKind}
    (hkind : kind.Readable) (h : ¬above.close.OpensBelow kind) :
    ∃ merged, above.extendAll? kind.lines = some merged ∧
      merged.close.isAliases = kind.isAliases := by
  simp only [GroupKind.OpensBelow, not_or, not_exists, ne_eq, not_not] at h
  obtain ⟨hnamed, hsame⟩ := h
  cases kind with
  | named name keywords => exact absurd rfl (hnamed name keywords)
  | plain keywords =>
      cases above with
      | plain above => exact ⟨_, extendAll?_keywords (fun _ _ => rfl) above hkind.2, rfl⟩
      | named name above => exact ⟨_, extendAll?_keywords (fun _ _ => rfl) above hkind.2, rfl⟩
      | aliases items =>
          rw [isAliases_close_aliases] at hsame
          cases hsame
  | single item =>
      cases above with
      | plain above => cases hsame
      | named name above => cases hsame
      | aliases items =>
          have hitem : ∀ a ∈ [item], ReadsAs a.line (.arrow a.pattern a.target) :=
            List.forall_mem_singleton.mpr hkind
          exact ⟨_, extendAll?_aliases items hitem, isAliases_close_aliases _⟩
  | cluster more =>
      cases above with
      | plain above => cases hsame
      | named name above => cases hsame
      | aliases items => exact ⟨_, extendAll?_aliases items hkind.2, isAliases_close_aliases _⟩

end OpenKind

namespace Assembly

/-- The contents of the groups in order, the open one at the end. -/
def kinds (a : Assembly) : List GroupKind :=
  a.placed.map Group.kind

theorem map_kind_groups_finish (a : Assembly) : a.finish.groups.map Group.kind = a.kinds := by
  rw [kinds, ← map_bare_groups_finish, List.map_map]
  rfl

/-- A place among the groups, in a list with the words `w`. -/
structure InGroups (w : List Text) (a : Assembly) : Prop where
  opened : a.opened = some .wordGroups
  afterSentinel : a.afterSentinel = false
  words : a.list.globalFilter = w

variable {w : List Text} {a : Assembly}

/-! ## Comments -/

theorem InGroups.waiting (h : InGroups w a) (pending : List Text) (gap : Nat) :
    InGroups w (a.closeLeaf.waiting pending gap) ∧
      InGroups w (a.closeLeaf.flushRun.waiting pending gap) := by
  constructor
  · exact ⟨a.opened_closeLeaf.trans h.opened, rfl, (congrArg _ a.list_closeLeaf).trans h.words⟩
  · exact ⟨a.opened_closeLeaf.trans h.opened, rfl, (congrArg _ a.list_closeLeaf).trans h.words⟩

/-- A comment or a blank line leaves the groups and ends the open one. -/
theorem InGroups.pushContent_note (h : InGroups w a) {c : Text} (hc : IsNote c) :
    InGroups w (a.pushContent c) ∧ (a.pushContent c).placed = a.placed ∧
      (a.pushContent c).leaf = none := by
  rcases hc with rfl | hc
  · rw [pushContent_blank (by decide)]
    rcases a.pushBlank_cases with ⟨hskip, -⟩ | ⟨-, pending, gap, -, hpush⟩
    · exact absurd h.opened hskip
    · rw [hpush]
      refine ⟨(h.waiting pending gap).2, ?_, a.leaf_closeLeaf⟩
      rw [placed_waiting, placed_flushRun, placed_closeLeaf]
  · rw [pushContent_comment hc.ofContent_eq]
    rcases a.pushComment_cases c with ⟨hskip, -⟩ | ⟨-, pending, gap, -, hpush⟩
    · rcases hskip with hskip | hskip
      · exact absurd h.opened hskip
      · rw [h.afterSentinel] at hskip
        cases hskip
    · rw [hpush]
      refine ⟨(h.waiting pending gap).1, ?_, a.leaf_closeLeaf⟩
      rw [placed_waiting, placed_closeLeaf]

theorem InGroups.read_notes (h : InGroups w a) {cs : List Text} (hcs : ∀ c ∈ cs, IsNote c) :
    InGroups w (a.read cs) ∧ (a.read cs).placed = a.placed ∧
      (cs ≠ [] → (a.read cs).leaf = none) ∧ (a.leaf = none → (a.read cs).leaf = none) := by
  induction cs generalizing a with
  | nil => exact ⟨h, rfl, fun hne => absurd rfl hne, id⟩
  | cons c cs ih =>
      obtain ⟨hnote, hplaced, hleaf⟩ := h.pushContent_note (hcs c (by simp))
      obtain ⟨hrest, hsame, -, hnone⟩ := ih hnote fun d hd => hcs d (by simp [hd])
      exact ⟨hrest, hsame.trans hplaced, fun _ => hnone hleaf, fun _ => hnone hleaf⟩

/-! ## Groups -/

/-- The lines of a group are in an open group with the same shape. -/
def OpenLike (a : Assembly) (kind : GroupKind) : Prop :=
  ∃ o, a.leaf = some o ∧ o.kind.close.isAliases = kind.isAliases

theorem InGroups.read_opening (h : InGroups w a) {kind : GroupKind} (hkind : kind.Readable)
    (hopens : ∀ o ∈ a.leaf, o.kind.close.OpensBelow kind) :
    InGroups w (a.read kind.lines) ∧ (a.read kind.lines).OpenLike kind ∧
      (a.read kind.lines).kinds = a.kinds ++ [kind] := by
  have hread := read_kind h.opened hkind fun o ho =>
    ⟨o.kind.close, (OpenKind.toOpen_close o.kind).symm, hopens o ho⟩
  have hclose := GroupKind.close_toOpen hkind
  rw [hread]
  refine ⟨⟨?_, rfl, ?_⟩, ⟨_, rfl, by rw [hclose]⟩, ?_⟩
  · exact opened_begin (by simp [h.opened]) _
  · simpa [begin, enter] using h.words
  · rw [kinds, placed_begin a.leaf_closeLeaf, placed_closeLeaf, List.map_append, kinds]
    simp [OpenGroup.closed, hclose]

theorem InGroups.read_joining (h : InGroups w a) {kind : GroupKind} (hkind : kind.Readable)
    {o : OpenGroup} (hleaf : a.leaf = some o) (hjoins : ¬o.kind.close.OpensBelow kind) :
    InGroups w (a.read kind.lines) ∧ (a.read kind.lines).OpenLike kind ∧
      (a.read kind.lines).kinds.length = a.kinds.length := by
  obtain ⟨merged, hmerged, hshape⟩ := OpenKind.exists_extendAll?_of_not_opensBelow hkind hjoins
  rw [read_extendAll h.opened h.afterSentinel hleaf hmerged]
  refine ⟨⟨h.opened, h.afterSentinel, h.words⟩, ⟨_, rfl, hshape⟩, ?_⟩
  simp [kinds, placed, hleaf]

/-- The place below a written group, with the blank line behind it. -/
structure Below (w : List Text) (g : Group) (next : Option Group) (a : Assembly) : Prop where
  inGroups : InGroups w a
  leaf : if g.blankAfter next then a.leaf = none else a.OpenLike g.kind

theorem InGroups.below (h : InGroups w a) {g : Group} (hlike : a.OpenLike g.kind)
    (next : Option Group) :
    Below w g next (a.read (if g.blankAfter next then [[]] else [])) ∧
      (a.read (if g.blankAfter next then [[]] else [])).kinds = a.kinds := by
  by_cases hblank : g.blankAfter next = true
  · obtain ⟨hin, hplaced, hleaf⟩ := h.pushContent_note (c := []) (Or.inl rfl)
    rw [if_pos hblank]
    exact ⟨⟨hin, by rwa [if_pos hblank]⟩, congrArg (List.map Group.kind) hplaced⟩
  · rw [if_neg hblank]
    exact ⟨⟨h, by rwa [if_neg hblank]⟩, rfl⟩

/-- The lines of a group below the comments `cs` join an open group. -/
def Joins (a : Assembly) (cs : List Text) (kind : GroupKind) : Prop :=
  cs = [] ∧ ∃ o, a.leaf = some o ∧ ¬o.kind.close.OpensBelow kind

/-- A written group is read as a group of its own, unless it joins the one above
it. -/
theorem InGroups.read_block (h : InGroups w a) {cs : List Text} {g : Group} (hg : g.kind.Readable)
    (hcs : ∀ c ∈ cs, IsNote c) (next : Option Group) :
    Below w g next (a.read (g.block cs next)) ∧
      (a.Joins cs g.kind → (a.read (g.block cs next)).kinds.length = a.kinds.length) ∧
      (¬a.Joins cs g.kind → (a.read (g.block cs next)).kinds = a.kinds ++ [g.kind]) := by
  rw [Group.block, read_append, read_append]
  by_cases hjoins : a.Joins cs g.kind
  · obtain ⟨rfl, o, hleaf, hopens⟩ := hjoins
    obtain ⟨hin, hlike, hlength⟩ := h.read_joining hg hleaf hopens
    obtain ⟨hbelow, hsame⟩ := hin.below hlike next
    rw [read_nil, hsame]
    exact ⟨hbelow, fun _ => hlength, fun hnot => absurd ⟨rfl, o, hleaf, hopens⟩ hnot⟩
  · obtain ⟨hnotes, hplaced, hclosed, -⟩ := h.read_notes hcs
    have hkinds : (a.read cs).kinds = a.kinds := congrArg (List.map Group.kind) hplaced
    have hleaf : ∀ o ∈ (a.read cs).leaf, o.kind.close.OpensBelow g.kind := by
      intro o ho
      by_cases hnone : cs = []
      · rw [hnone, read_nil] at ho
        by_contra hopens
        exact hjoins ⟨hnone, o, ho, hopens⟩
      · rw [hclosed hnone] at ho
        cases ho
    obtain ⟨hin, hlike, hread⟩ := hnotes.read_opening hg hleaf
    obtain ⟨hbelow, hsame⟩ := hin.below hlike next
    rw [hsame, hread, hkinds]
    exact ⟨hbelow, fun h => absurd h hjoins, fun _ => rfl⟩

theorem opensBelow_congr {above above' : GroupKind} (h : above.isAliases = above'.isAliases)
    (below : GroupKind) :
    above.OpensBelow below ↔ above'.OpensBelow below := by
  rw [GroupKind.OpensBelow, GroupKind.OpensBelow, h]

/-- A group joins the one above it exactly when the two merge. -/
theorem Below.joins_iff {last g : Group} (h : Below w last (some g) a) :
    a.Joins g.comments g.kind ↔ last.Merges g := by
  have hleaf := h.leaf
  by_cases hblank : last.blankAfter (some g) = true
  · rw [if_pos hblank] at hleaf
    simp [Joins, Group.Merges, hleaf, hblank]
  · rw [if_neg hblank] at hleaf
    obtain ⟨o, ho, hshape⟩ := hleaf
    have hopens := opensBelow_congr hshape g.kind
    simp [Joins, Group.Merges, ho, hblank, hopens]

/-- Written groups are read back one by one when no two of them merge, and as
fewer groups when two of them do. -/
theorem Below.read_blocks {last : Group} {gs : List Group} (h : Below w last gs.head? a)
    (hgs : ∀ g ∈ gs, g.Readable) :
    InGroups w (a.read (Group.blocks gs)) ∧
      (((last :: gs).IsChain fun above below => ¬above.Merges below) →
        (a.read (Group.blocks gs)).kinds = a.kinds ++ gs.map Group.kind) ∧
      ((¬(last :: gs).IsChain fun above below => ¬above.Merges below) →
        (a.read (Group.blocks gs)).kinds.length < a.kinds.length + gs.length) := by
  induction gs generalizing a last with
  | nil => simpa [Group.blocks] using h.inGroups
  | cons g gs ih =>
      have hg := hgs g (by simp)
      obtain ⟨hbelow, hjoins, hopens⟩ := h.inGroups.read_block hg.kind hg.comments gs.head?
      rw [h.joins_iff] at hjoins hopens
      obtain ⟨hin, hseparate, hfewer⟩ := ih hbelow fun g' hg' => hgs g' (by simp [hg'])
      rw [Group.blocks, read_append, List.isChain_cons_cons, List.map_cons, List.length_cons]
      refine ⟨hin, ?_, ?_⟩
      · rintro ⟨hmerges, hchain⟩
        rw [hseparate hchain, hopens hmerges]
        simp
      · intro hnot
        by_cases hmerges : last.Merges g
        · have hlength := hjoins hmerges
          by_cases hchain : (g :: gs).IsChain fun above below => ¬above.Merges below
          · rw [hseparate hchain, List.length_append, List.length_map]
            omega
          · have hless := hfewer hchain
            omega
        · have hless := hfewer fun hchain => hnot ⟨hmerges, hchain⟩
          rw [hopens hmerges, List.length_append, List.length_singleton] at hless
          omega

end Assembly

namespace KeywordList

open Assembly (InGroups between underWordGroups)

/-- No group of the list is read as a part of the one above it. -/
def Separate (l : KeywordList) : Prop :=
  l.groups.IsChain fun above below => ¬above.Merges below

theorem Writable.read_groupLines {l : KeywordList} (h : l.Writable) {w : List Text}
    {a : Assembly} (ha : InGroups w a) (hleaf : a.leaf = none) (hkinds : a.kinds = []) :
    InGroups w (a.read l.groupLines) ∧
      ((a.read l.groupLines).kinds = l.groups.map Group.kind ↔ l.Separate) := by
  have hgroups := h.groups
  unfold Separate groupLines
  cases hl : l.groups with
  | nil => exact ⟨ha, by simp [hkinds]⟩
  | cons g gs =>
      rw [hl] at hgroups
      have hg := hgroups g (by simp)
      have hnotes : ∀ c ∈ g.comments.dropWhile (·.isEmpty), IsNote c := fun c hc =>
        hg.comments c ((List.dropWhile_suffix _).subset hc)
      obtain ⟨hbelow, -, hfirst⟩ := ha.read_block hg.kind hnotes gs.head?
      have hopens : ¬a.Joins (g.comments.dropWhile (·.isEmpty)) g.kind := by
        rintro ⟨-, o, ho, -⟩
        rw [hleaf] at ho
        cases ho
      obtain ⟨hin, hseparate, hfewer⟩ := hbelow.read_blocks fun g' hg' => hgroups g' (by simp [hg'])
      rw [hfirst hopens, hkinds] at hseparate hfewer
      refine ⟨by rwa [Assembly.read_append], ?_⟩
      rw [Assembly.read_append]
      constructor
      · intro hsame
        by_contra hchain
        have hless := hfewer hchain
        rw [hsame, List.length_map, List.length_cons] at hless
        simp at hless
        omega
      · intro hchain
        simpa using hseparate hchain

instance (l : KeywordList) : Decidable l.Separate :=
  inferInstanceAs (Decidable (List.IsChain _ _))

/-- The lines below the second sentinel give back the groups exactly when they
are separate. -/
theorem Writable.read_inside {l : KeywordList} (h : l.Writable) :
    ((underWordGroups l.globalFilter).read l.inside).list.globalFilter = l.globalFilter ∧
      (((underWordGroups l.globalFilter).read l.inside).kinds = l.groups.map Group.kind ↔
        l.Separate) := by
  by_cases hempty : (l.groups.isEmpty && l.trailing.isEmpty) = true
  · obtain ⟨words, groups, trailing⟩ := l
    simp only [Bool.and_eq_true, List.isEmpty_iff] at hempty
    obtain ⟨rfl, rfl⟩ := hempty
    exact ⟨rfl, iff_of_true rfl List.isChain_nil⟩
  · have hstart : InGroups l.globalFilter (between l.globalFilter []) := ⟨rfl, rfl, rfl⟩
    obtain ⟨hin, hread⟩ := h.read_groupLines hstart rfl rfl
    obtain ⟨hend, hplaced, -⟩ := hin.read_notes h.trailing
    have hkinds : (((between l.globalFilter []).read l.groupLines).read l.trailing).kinds =
        ((between l.globalFilter []).read l.groupLines).kinds :=
      congrArg (List.map Group.kind) hplaced
    rw [inside, if_neg hempty, Assembly.read_append, Assembly.read_append,
      Assembly.read_blank_underWordGroups, hkinds]
    exact ⟨hend.words, hread⟩

end KeywordList

end Marginalia.Keywords
