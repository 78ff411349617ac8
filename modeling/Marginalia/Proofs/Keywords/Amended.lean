import Marginalia.Proofs.Keywords.Related

/-!
# Edits in place

An edit in place gives one group another content, or puts a new group among the
others, and every group keeps the comments above it.  A new content has the
shape of the old one, so its lines open a group of their own where those of the
old one did.  A new group belongs to no run, so it is written apart from its
neighbours.  Hence the groups of the edited list are read back one by one, with
their comments.
-/

namespace Marginalia.Keywords

namespace GroupKind

/-- Another content that opens a group of its own wherever this one does:
aliases stay aliases, and a name is not taken away. -/
def KeepsShape (kind kind' : GroupKind) : Prop :=
  kind.isAliases = kind'.isAliases ∧
    ((∃ name keywords, kind = named name keywords) →
      ∃ name keywords, kind' = named name keywords)

theorem KeepsShape.opensBelow {kind kind' : GroupKind} (h : kind.KeepsShape kind')
    {above : GroupKind} (hopens : above.OpensBelow kind) : above.OpensBelow kind' := by
  obtain ⟨hshape, hnamed⟩ := h
  rw [OpensBelow, ← hshape]
  exact hopens.imp_left hnamed

theorem isAliases_ofAliases (items : List Alias) : (ofAliases items).isAliases = true := by
  rcases items with _ | ⟨item, _ | ⟨second, rest⟩⟩ <;> rfl

end GroupKind

namespace Group

variable {gs : List Group}

/-! ## Neighbours -/

theorem isChain_set {α : Type} {R : α → α → Prop} {xs : List α} {x y : α} {i : Nat}
    (h : xs.IsChain R) (hx : xs[i]? = some x) (habove : ∀ a, R a x → R a y)
    (hbelow : ∀ b, R x b → R y b) : (xs.set i y).IsChain R := by
  induction xs generalizing i with
  | nil => exact h
  | cons first xs ih =>
      obtain ⟨hhead, hrest⟩ := List.isChain_cons.mp h
      cases i with
      | zero =>
          obtain rfl : first = x := Option.some.inj hx
          exact List.isChain_cons.mpr ⟨fun b hb => hbelow b (hhead b hb), hrest⟩
      | succ i =>
          -- the element below the first one is the old one, unless it is the
          -- one that is replaced
          refine List.isChain_cons.mpr ⟨fun b hb => ?_, ih hrest hx⟩
          cases xs with
          | nil => cases hx
          | cons next xs =>
              cases i with
              | zero =>
                  obtain rfl : next = x := Option.some.inj hx
                  obtain rfl : y = b := Option.some.inj hb
                  exact habove first (hhead next rfl)
              | succ i => exact hhead b hb

/-- A content of the same shape merges with no neighbour that the old one did
not merge with. -/
theorem isChain_set_kind {g : Group} {kind : GroupKind} {i : Nat}
    (h : gs.IsChain fun above below => ¬above.Merges below) (hg : gs[i]? = some g)
    (hshape : g.kind.KeepsShape kind) :
    (gs.set i { g with kind }).IsChain fun above below => ¬above.Merges below := by
  refine isChain_set h hg (fun above hnot hmerges => hnot ?_) fun below hnot hmerges => hnot ?_
  · obtain ⟨hcomments, hblank, hjoins⟩ := hmerges
    exact ⟨hcomments, hblank, fun hopens => hjoins (hshape.opensBelow hopens)⟩
  · obtain ⟨hcomments, hblank, hjoins⟩ := hmerges
    exact ⟨hcomments, hblank, (Assembly.opensBelow_congr hshape.1 below.kind).not.mpr hjoins⟩

/-- A group that belongs to no run merges with none of its new neighbours. -/
theorem isChain_insertIdx {g : Group} {index : Nat}
    (h : gs.IsChain fun above below => ¬above.Fuses below) (hg : g.related = none)
    (hindex : index ≤ gs.length) :
    (renumber (gs.insertIdx index g)).IsChain fun above below => ¬above.Merges below := by
  obtain ⟨front, back, rfl, rfl⟩ : ∃ front back, gs = front ++ back ∧ front.length = index :=
    ⟨gs.take index, gs.drop index, (List.take_append_drop index gs).symm,
      List.length_take_of_le hindex⟩
  obtain ⟨hfront, hback, -⟩ := List.isChain_append.mp h
  rw [isChain_renumber_iff, insertIdx_length_append, List.isChain_append, List.isChain_cons]
  refine ⟨hfront, ⟨fun below _ => ?_, hback⟩, fun above _ below hbelow => ?_⟩
  · exact not_fuses_of_related_eq_none (Or.inl hg)
  · obtain rfl : g = below := Option.some.inj hbelow
    exact not_fuses_of_related_eq_none (Or.inr hg)

/-! ## Comments -/

/-- The comments above the groups are such as a text can hold: no blank line
stands alone, and none stands above the comments of the first group. -/
def Commented (css : List (List Text)) : Prop :=
  [[]] ∉ css ∧ ∀ cs ∈ css.head?, cs.head? ≠ some []

/-- Groups without comments can be put anywhere. -/
theorem Commented.insertIdx_nil {css : List (List Text)} (h : Commented css) (index : Nat) :
    Commented (css.insertIdx index []) := by
  constructor
  · intro hmem
    rcases List.eq_or_mem_of_mem_insertIdx hmem with hnil | hmem
    · cases hnil
    · exact h.1 hmem
  · cases index with
    | zero => simp
    | succ index =>
        cases css with
        | nil => simp
        | cons cs css => exact h.2

theorem map_comments_renumber (gs : List Group) :
    (renumber gs).map comments = gs.map comments := by
  have hcontents := congrArg (List.map Prod.snd) (map_renumber gs)
  rwa [List.map_map, List.map_map] at hcontents

theorem map_numberRuns {β : Type} {f : Group → β}
    (hf : ∀ (g : Group) (related : Option Related), f { g with related } = f g) (cluster : Nat)
    (runs : List (List Group)) : (numberRuns cluster runs).map f = runs.flatten.map f := by
  induction runs generalizing cluster with
  | nil => rfl
  | cons run runs ih =>
      rw [numberRuns, List.map_append, Assembly.map_numberRun hf, ih, List.flatten_cons,
        List.map_append]

theorem Canonical.commented {runs : List (List Group)} (h : Canonical runs) (cluster : Nat) :
    Commented ((numberRuns cluster runs).map comments) := by
  rw [map_numberRuns fun _ _ => rfl]
  constructor
  · rw [List.mem_map]
    rintro ⟨g, hg, hone⟩
    obtain ⟨run, hrun, hg⟩ := List.mem_flatten.mp hg
    rcases h.eq_nil_or_exists_ne hrun hg with hnone | ⟨c, hc, hne⟩
    · rw [hnone] at hone
      cases hone
    · rw [hone, List.mem_singleton] at hc
      exact hne hc
  · intro cs hcs
    cases runs with
    | nil => cases hcs
    | cons run runs =>
        obtain ⟨g, rest, rfl⟩ := List.exists_cons_of_ne_nil (h.isRun run (by simp)).ne_nil
        obtain rfl : g.comments = cs := Option.some.inj hcs
        exact h.startsList _ rfl g rfl

end Group

/-! ## Lists that are read back -/

namespace KeywordList

variable {l l' : KeywordList}

theorem map_contents_unplaced (l : KeywordList) :
    l.unplaced.groups.map (fun g => (g.kind, g.comments)) =
      l.groups.map fun g => (g.kind, g.comments) := by
  rw [unplaced, List.map_map]
  rfl

/-- Groups that are read back have the content and the comments that they were
written with. -/
theorem map_contents_numberRuns {gs : List Group} {runs : List (List Group)}
    (h : Group.RereadAs gs runs) (hcomments : Group.Commented (gs.map Group.comments))
    (cluster : Nat) :
    (Group.numberRuns cluster runs).map (fun g => (g.kind, g.comments)) =
      gs.map fun g => (g.kind, g.comments) := by
  rw [Group.map_numberRuns (fun _ _ => rfl), h.flatten_eq, List.map_map]
  refine List.map_congr_left fun g hg => ?_
  have hne : g.comments ≠ [[]] := fun hone => hcomments.1 (List.mem_map.mpr ⟨g, hg, hone⟩)
  simp [Group.reread, hne]

/-- A list that can be written, with separate groups and with comments such as a
text can hold, is read back with its groups and its comments. -/
theorem Writable.contents_ofText_toText (h : l.Writable) (hs : l.Spaced) (hsep : l.Separate)
    (hcomments : Group.Commented (l.groups.map Group.comments)) (hne : l.groups ≠ []) (t : Text) :
    (ofText (l.toText (some t))).globalFilter = l.globalFilter ∧
      (ofText (l.toText (some t))).groups.map (fun g => (g.kind, g.comments)) =
        l.groups.map (fun g => (g.kind, g.comments)) ∧
      (ofText (l.toText (some t))).trailing = l.trailing := by
  have hfirst : ∀ g ∈ l.groups.head?, g.StartsList := fun g hg =>
    hcomments.2 g.comments (by rw [List.head?_map, hg]; rfl)
  have hruns := Group.rereadAs_rereadRuns h.groups hs.groups hsep
  obtain ⟨hcanonical, hlines⟩ := hruns.canonical hfirst
  generalize Group.rereadRuns l.groups = runs at hruns hcanonical hlines
  have hcontents := map_contents_numberRuns hruns hcomments 0
  have htrails : IsTrailing runs l.trailing :=
    ⟨h.trailing, fun hnil => absurd (hruns.eq_nil_iff.mp hnil) hne, fun _ => hs.trailing⟩
  have hk : KeywordList.Canonical ⟨l.globalFilter, Group.numberRuns 0 runs, l.trailing⟩ :=
    ⟨h.words, runs, hcanonical, rfl, htrails⟩
  have hinside : KeywordList.inside ⟨l.globalFilter, Group.numberRuns 0 runs, l.trailing⟩ =
      l.inside := by
    have hnumbered : Group.numberRuns 0 runs ≠ [] := by
      rw [ne_eq, ← List.map_eq_nil_iff, hcontents, List.map_eq_nil_iff]
      exact hne
    rw [inside, inside, groupLines_eq_runsLines rfl hcanonical, hlines, groupLines_eq_blocks,
      Group.startList_eq_self hfirst, List.isEmpty_eq_false_iff.mpr hnumbered,
      List.isEmpty_eq_false_iff.mpr hne]
  have hread := h.unplaced_ofText_eq hk rfl hinside t
  rw [← globalFilter_unplaced (ofText _), ← map_contents_unplaced (ofText _),
    ← trailing_unplaced (ofText _), hread]
  exact ⟨rfl, hcontents, rfl⟩

end KeywordList

/-! ## Edits -/

/-- The edit puts a new group among the others, or another content in a group,
which keeps at least one alias if one is taken from it. -/
def KeywordEdit.Amends (l : KeywordList) : KeywordEdit → Prop
  | insertGroup _ _ | setKeywords _ _ | renameGroup _ _ | addAlias _ _ => True
  | removeAlias index _ =>
    ∃ items, (l.groups[index]?).map Group.kind = some (.cluster items) ∧ 1 < items.length
  | _ => False

theorem KeywordEdit.Amends.keepsWords {l : KeywordList} {e : KeywordEdit} (h : e.Amends l) :
    e.KeepsWords := by
  cases e with
  | setGlobalFilter words => exact h.elim
  | _ => trivial

/-- An edit that takes away a group does not only change its content. -/
theorem KeywordEdit.Removes.not_amends {l : KeywordList} {e : KeywordEdit} {index : Nat} {g : Group}
    (h : e.Removes index g.kind) (hg : l.groups[index]? = some g) : ¬e.Amends l := by
  generalize hkind : g.kind = kind at h
  cases h with
  | group => exact not_false
  | onlyAlias =>
      rintro ⟨items, hitems, -⟩
      rw [hg, Option.map_some, hkind] at hitems
      cases hitems

/-- A group stays one of aliases, or one that is not, and keeps having a
name. -/
theorem KeywordEdit.Recasts.keepsShape {e : KeywordEdit} {index : Nat} {old kind : GroupKind}
    (h : e.Recasts index old kind) : old.KeepsShape kind := by
  cases h with
  | plainKeywords _ _ => exact ⟨rfl, by simp⟩
  | namedKeywords _ => exact ⟨rfl, fun _ => ⟨_, _, rfl⟩⟩
  | named _ => exact ⟨rfl, fun _ => ⟨_, _, rfl⟩⟩
  | renamed _ => exact ⟨rfl, fun _ => ⟨_, _, rfl⟩⟩
  | secondAlias _ => exact ⟨rfl, by simp⟩
  | anotherAlias _ => exact ⟨rfl, by simp⟩
  | lessAlias _ => exact ⟨(GroupKind.isAliases_ofAliases _).symm, by simp⟩

namespace KeywordList

variable {l l' : KeywordList}

/-- What an edit in place makes of the groups. -/
inductive Amended (gs : List Group) : List Group → Prop where
  | inserted (index : Nat) (kind : GroupKind) (h : index ≤ gs.length) :
    Amended gs (Group.renumber (gs.insertIdx index (.ofKind kind)))
  | changed (index : Nat) (g : Group) (kind : GroupKind) (hg : gs[index]? = some g)
    (hshape : g.kind.KeepsShape kind) : Amended gs (gs.set index { g with kind })

theorem amended_run? {e : KeywordEdit} (he : e.Amends l) (hl : e.run? l = some l') :
    Amended l.groups l'.groups := by
  cases edited_of_run? hl with
  | inserted index kind _ => exact .inserted _ kind (Nat.min_le_right ..)
  | @recast _ index g kind hg hrecasts => exact .changed index g kind hg hrecasts.keepsShape
  | removed hg hremoves => exact (hremoves.not_amends hg he).elim
  | reworded words => exact he.elim
  | moved _ _ _ => exact he.elim
  | stayed _ => exact he.elim

theorem Amended.ne_nil {gs gs' : List Group} (h : Amended gs gs') : gs' ≠ [] := by
  rw [ne_eq, ← List.length_eq_zero_iff]
  cases h with
  | inserted index kind hindex =>
      rw [Group.length_renumber, List.length_insertIdx_of_le_length hindex]
      exact Nat.succ_ne_zero _
  | changed index g kind hg =>
      have hindex := (List.getElem?_eq_some_iff.mp hg).1
      rw [List.length_set]
      omega

/-- No group merges with another one after an edit in place. -/
theorem Amended.isChain {gs gs' : List Group} (h : Amended gs gs')
    (hchain : gs.IsChain fun above below => ¬above.Fuses below ∧ ¬above.Merges below) :
    gs'.IsChain fun above below => ¬above.Merges below := by
  cases h with
  | inserted index kind hindex =>
      exact Group.isChain_insertIdx (hchain.imp fun _ _ hnot => hnot.1) rfl hindex
  | changed index g kind hg hshape =>
      exact Group.isChain_set_kind (hchain.imp fun _ _ hnot => hnot.2) hg hshape

/-- Edits in place leave the comments of all groups, and a new group has
none. -/
theorem Amended.commented {gs gs' : List Group} (h : Amended gs gs')
    (hcomments : Group.Commented (gs.map Group.comments)) :
    Group.Commented (gs'.map Group.comments) := by
  cases h with
  | inserted index kind hindex =>
      rw [Group.map_comments_renumber, List.map_insertIdx]
      exact hcomments.insertIdx_nil index
  | changed index g kind hg =>
      rwa [map_set_kind (fun _ _ => rfl) hg]

/-- After an edit in place the text is read back as the edited list: its words,
every group with the comments above it, and the comments behind the last one. -/
theorem contents_ofText_toText_of_amends {t : Text} {e : KeywordEdit} {l : KeywordList}
    (hwritable : ∀ g ∈ (ofText t).groups, g.kind.isWritable = true)
    (he : e.Amends (ofText t)) (hl : e.run? (ofText t) = some l) :
    (ofText (l.toText (some t))).globalFilter = l.globalFilter ∧
      (ofText (l.toText (some t))).groups.map (fun g => (g.kind, g.comments)) =
        l.groups.map (fun g => (g.kind, g.comments)) ∧
      (ofText (l.toText (some t))).trailing = l.trailing := by
  have hcanonical := canonical_ofText_of_isWritable hwritable
  obtain ⟨hold, hspaced⟩ := writable_spaced_of_unplaced hcanonical
  have hamended := amended_run? he hl
  have hcomments : Group.Commented ((ofText t).groups.map Group.comments) := by
    obtain ⟨-, runs, hruns, hgroups, -⟩ := hcanonical
    have hcommented := hruns.commented 0
    rw [← hgroups, unplaced, List.map_map] at hcommented
    exact hcommented
  exact (writable_run? hold he.keepsWords hl).contents_ofText_toText
    (spaced_run? hold hspaced he.keepsWords hl) (hamended.isChain (isChain_groups_ofText t))
    (hamended.commented hcomments) hamended.ne_nil t

/-- A group is put into the middle of a run with comments. -/
theorem contents_ofText_toText_of_amends_inserted :
    let t : Text :=
      "[GLOBAL_FILTER]\nw\n\n[WORD_GROUPS]\n\n# a\nA\nx => y\n# b\n[N]\nB\n\n# c\n".toList
    ∃ l, (KeywordEdit.insertGroup 1 (.plain [['C']])).run? (ofText t) = some l ∧
      (ofText (l.toText (some t))).globalFilter = [['w']] ∧
      (ofText (l.toText (some t))).groups.map (fun g => (g.kind, g.comments)) =
        [(.plain [['A']], ["# a".toList]), (.plain [['C']], []), (.single ⟨['x'], ['y']⟩, []),
          (.named ['N'] [['B']], ["# b".toList])] ∧
      (ofText (l.toText (some t))).trailing = ["# c".toList] := by
  intro t
  have hwritable : ∀ g ∈ (ofText t).groups, g.kind.isWritable = true := by decide
  have hamends : (KeywordEdit.insertGroup 1 (.plain [['C']])).Amends (ofText t) := trivial
  obtain ⟨l, hl, hwords, hgroups, htrailing⟩ :
      ∃ l, (KeywordEdit.insertGroup 1 (.plain [['C']])).run? (ofText t) = some l ∧
        l.globalFilter = [['w']] ∧
        l.groups.map (fun g => (g.kind, g.comments)) =
          [(.plain [['A']], ["# a".toList]), (.plain [['C']], []), (.single ⟨['x'], ['y']⟩, []),
            (.named ['N'] [['B']], ["# b".toList])] ∧
        l.trailing = ["# c".toList] := ⟨_, rfl, by decide, by decide, by decide⟩
  obtain ⟨hwords', hgroups', htrailing'⟩ :=
    contents_ofText_toText_of_amends hwritable hamends hl
  exact ⟨l, hl, hwords'.trans hwords, hgroups'.trans hgroups, htrailing'.trans htrailing⟩

end KeywordList

end Marginalia.Keywords
