import Marginalia.Proofs.Keywords.Written

/-!
# Lists that were read

Whatever lines are read, the groups come in canonical runs.  While lines are
read an assembly is in one of three places: in a run with its last group open,
below a run whose last group is closed, or between runs.  `Place` says for each
of them what waits there and how the groups so far are canonical.  Every line
leads from a place to a place, and the end of the text leaves a canonical list.
-/

namespace Marginalia.Keywords

/-- A content that a text can have, with a name that can be written between
brackets. -/
structure IsInput (content : Text) : Prop where
  not_mem_lf : '\n' ∉ content
  isGroupName : ∀ n, LineClass.ofContent content = .name n → IsGroupName n

namespace OpenKind

/-- Every line of the open group is read back. -/
def Readable : OpenKind → Prop
  | plain keywords => keywords ≠ [] ∧ ∀ k ∈ keywords, ReadsAs k (.keyword k)
  | named name keywords =>
    ReadsAs ('[' :: (name ++ [']'])) (.name name) ∧ ∀ k ∈ keywords, ReadsAs k (.keyword k)
  | aliases items => items ≠ [] ∧ ∀ a ∈ items, ReadsAs a.line (.arrow a.pattern a.target)

theorem readable_close {kind : OpenKind} (h : kind.Readable) : kind.close.Readable := by
  cases kind with
  | plain keywords => exact h
  | named name keywords => exact h
  | aliases items => exact GroupKind.readable_ofAliases h.1 h.2

theorem isAliases_close_aliases (items : List Alias) :
    (close (.aliases items)).isAliases = true := by
  rcases items with _ | ⟨item, _ | ⟨second, rest⟩⟩ <;> rfl

/-- A line that opens a group can be read back in it. -/
theorem readable_of_ofClass? {content : Text} {kind : OpenKind} (hinput : IsInput content)
    (h : ofClass? (LineClass.ofContent content) = some kind) : kind.Readable := by
  cases hclass : LineClass.ofContent content with
  | name n =>
      obtain rfl : OpenKind.named n [] = kind := by simpa [ofClass?, hclass] using h
      exact ⟨readsAs_name hinput.not_mem_lf hclass (hinput.isGroupName n hclass), by simp⟩
  | arrow pattern target =>
      obtain rfl : OpenKind.aliases [⟨pattern, target⟩] = kind := by
        simpa [ofClass?, hclass] using h
      have hline := readsAs_arrow (a := ⟨pattern, target⟩) hinput.not_mem_lf hclass
      exact ⟨by simp, by simpa using hline⟩
  | keyword k =>
      obtain rfl : OpenKind.plain [k] = kind := by simpa [ofClass?, hclass] using h
      exact ⟨by simp, by simpa using readsAs_keyword hinput.not_mem_lf hclass⟩
  | blank => simp [ofClass?, hclass] at h
  | comment written => simp [ofClass?, hclass] at h
  | sentinel opened => simp [ofClass?, hclass] at h

theorem opensBelow_close_of_extend? {line : LineClass} {kind kind' : OpenKind} {above : GroupKind}
    (h : kind.extend? line = some kind') (habove : above.OpensBelow kind.close) :
    above.OpensBelow kind'.close := by
  cases kind with
  | plain keywords =>
      cases line with
      | keyword k =>
          obtain rfl : OpenKind.plain (keywords ++ [k]) = kind' := by simpa [extend?] using h
          rcases habove with ⟨name, ks, hnamed⟩ | haliases
          · cases hnamed
          · exact Or.inr haliases
      | _ => simp [extend?] at h
  | named name keywords =>
      cases line with
      | keyword k =>
          obtain rfl : OpenKind.named name (keywords ++ [k]) = kind' := by simpa [extend?] using h
          exact Or.inl ⟨name, _, rfl⟩
      | _ => simp [extend?] at h
  | aliases items =>
      cases line with
      | arrow pattern target =>
          obtain rfl : OpenKind.aliases (items ++ [⟨pattern, target⟩]) = kind' := by
            simpa [extend?] using h
          rcases habove with ⟨name, ks, hnamed⟩ | haliases
          · have hnot := isAliases_close_aliases items
            rw [hnamed] at hnot
            cases hnot
          · right
            rwa [isAliases_close_aliases] at haliases ⊢
      | _ => simp [extend?] at h

/-- A line that joins a group can be read back in it, and the group opens where
it did. -/
theorem readable_of_extend? {content : Text} {kind kind' : OpenKind} (hinput : IsInput content)
    (hkind : kind.Readable) (h : kind.extend? (LineClass.ofContent content) = some kind') :
    kind'.Readable ∧ ∀ above : GroupKind, above.OpensBelow kind.close →
      above.OpensBelow kind'.close := by
  refine ⟨?_, fun above => opensBelow_close_of_extend? h⟩
  cases hclass : LineClass.ofContent content with
  | keyword k =>
      have hk := readsAs_keyword hinput.not_mem_lf hclass
      cases kind with
      | plain keywords =>
          obtain rfl : OpenKind.plain (keywords ++ [k]) = kind' := by
            simpa [extend?, hclass] using h
          exact ⟨by simp, forall_mem_concat hkind.2 hk⟩
      | named name keywords =>
          obtain rfl : OpenKind.named name (keywords ++ [k]) = kind' := by
            simpa [extend?, hclass] using h
          exact ⟨hkind.1, forall_mem_concat hkind.2 hk⟩
      | aliases items => simp [extend?, hclass] at h
  | arrow pattern target =>
      have ha := readsAs_arrow (a := ⟨pattern, target⟩) hinput.not_mem_lf hclass
      cases kind with
      | aliases items =>
          obtain rfl : OpenKind.aliases (items ++ [⟨pattern, target⟩]) = kind' := by
            simpa [extend?, hclass] using h
          exact ⟨by simp, forall_mem_concat hkind.2 ha⟩
      | plain keywords => simp [extend?, hclass] at h
      | named name keywords => simp [extend?, hclass] at h
  | name n => simp [extend?, hclass] at h
  | blank => simp [extend?, hclass] at h
  | comment written => simp [extend?, hclass] at h
  | sentinel opened => simp [extend?, hclass] at h

theorem opensBelow_of_extend?_eq_none {line : LineClass} {kind kind' : OpenKind}
    (h : ofClass? line = some kind') (hnone : kind.extend? line = none) :
    kind.close.OpensBelow kind'.close := by
  cases line with
  | name n =>
      obtain rfl : OpenKind.named n [] = kind' := by simpa [ofClass?] using h
      exact Or.inl ⟨n, [], rfl⟩
  | arrow pattern target =>
      obtain rfl : OpenKind.aliases [⟨pattern, target⟩] = kind' := by simpa [ofClass?] using h
      cases kind with
      | aliases items => simp [extend?] at hnone
      | plain keywords => exact Or.inr (by simp [close, GroupKind.ofAliases, GroupKind.isAliases])
      | named name keywords =>
          exact Or.inr (by simp [close, GroupKind.ofAliases, GroupKind.isAliases])
  | keyword k =>
      obtain rfl : OpenKind.plain [k] = kind' := by simpa [ofClass?] using h
      cases kind with
      | aliases items =>
          right
          rw [isAliases_close_aliases]
          simp [close, GroupKind.isAliases]
      | plain keywords => simp [extend?] at hnone
      | named name keywords => simp [extend?] at hnone
  | blank => simp [ofClass?] at h
  | comment written => simp [ofClass?] at h
  | sentinel opened => simp [ofClass?] at h

end OpenKind

namespace Assembly

/-- What an assembly holds when some runs have ended. -/
structure Holds (a : Assembly) (runs : List (List Group)) : Prop where
  groups : a.list.groups = Group.numberRuns 0 runs
  nextCluster : a.nextCluster = runs.foldl Group.nextCluster 0
  words : ∀ w ∈ a.list.globalFilter, IsWord w
  trailing : a.list.trailing = []
  notes : ∀ c ∈ a.pending, IsNote c

inductive Place (a : Assembly) (runs : List (List Group)) : Prop where
  /-- A group is open, the last one of its run. -/
  | inRun (g : OpenGroup) (hleaf : a.leaf = some g) (hopened : a.opened = some .wordGroups)
      (hafter : a.afterSentinel = false) (hpending : a.pending = []) (hgap : a.gap = 0)
      (hstart : g.start = 0) (hkind : g.kind.Readable)
      (hcanonical : Group.Canonical
        (runs ++ [a.run ++ [⟨g.kind.close, g.start, g.comments, none⟩]]))
  /-- Comments stand directly below the last group of a run. -/
  | belowRun (hleaf : a.leaf = none) (hopened : a.opened = some .wordGroups)
      (hafter : a.afterSentinel = false) (hpending : a.pending ≠ []) (hblank : [] ∉ a.pending)
      (hgap : a.gap = 0) (hrun : a.run ≠ []) (hcanonical : Group.Canonical (runs ++ [a.run]))
  /-- No run is open. -/
  | between (hleaf : a.leaf = none) (hrun : a.run = []) (hcanonical : Group.Canonical runs)
      (hgap : a.pending ≠ [] → a.gap = 0)
      (hfirst : runs = [] → a.pending.head? ≠ some [])
      (hnext : runs ≠ [] → a.pending ≠ [] → [] ∈ a.pending ∧ ∃ c ∈ a.pending, c ≠ [])
      (hapart : runs ≠ [] → a.opened = some .wordGroups → a.afterSentinel = false →
        a.pending = [] → 0 < a.gap)

section Steps

variable {a : Assembly} {runs : List (List Group)} {content : Text}

theorem numberRuns_closeLeaf_flushRun (hgroups : a.list.groups = Group.numberRuns 0 runs)
    (hnext : a.nextCluster = runs.foldl Group.nextCluster 0) :
    a.closeLeaf.flushRun.list.groups = Group.numberRuns 0 (runs ++ [a.closeLeaf.run]) ∧
      a.closeLeaf.flushRun.nextCluster =
        (runs ++ [a.closeLeaf.run]).foldl Group.nextCluster 0 := by
  constructor
  · rw [Group.numberRuns_concat, ← hgroups, ← hnext]
    simp [flushRun]
  · rw [List.foldl_concat, ← hnext]
    simp [flushRun, Group.nextCluster]

theorem Holds.closeLeaf_flushRun (h : Holds a runs) :
    Holds a.closeLeaf.flushRun (runs ++ [a.closeLeaf.run]) := by
  obtain ⟨hgroups, hnext⟩ := numberRuns_closeLeaf_flushRun h.groups h.nextCluster
  refine ⟨hgroups, hnext, ?_, ?_, ?_⟩
  · simpa [flushRun] using h.words
  · simpa [flushRun] using h.trailing
  · simpa [flushRun] using h.notes

theorem Holds.waiting (h : Holds a runs) {pending : List Text} (hnotes : ∀ c ∈ pending, IsNote c)
    (gap : Nat) : Holds (a.waiting pending gap) runs :=
  ⟨h.groups, h.nextCluster, h.words, h.trailing, hnotes⟩

theorem Holds.closeLeaf (h : Holds a runs) : Holds a.closeLeaf runs := by
  refine ⟨?_, ?_, ?_, ?_, ?_⟩
  · simpa using h.groups
  · simpa using h.nextCluster
  · simpa using h.words
  · simpa using h.trailing
  · simpa using h.notes

theorem run_closeLeaf_of_leaf {g : OpenGroup} (hleaf : a.leaf = some g) :
    a.closeLeaf.run = a.run ++ [⟨g.kind.close, g.start, g.comments, none⟩] := by
  simp [closeLeaf, hleaf]

/-- Wherever a run ends, the runs so far are canonical, and what waits can stand
behind them. -/
theorem Place.ended (hplace : Place a runs) (h : Holds a runs) :
    ∃ runs', Group.Canonical runs' ∧ Holds a.closeLeaf.flushRun runs' ∧
      (runs' = [] → a.pending.head? ≠ some []) ∧
      (runs' ≠ [] → a.pending ≠ [] → ∃ c ∈ a.pending, c ≠ []) ∧
      (a.pending ≠ [] → a.gap = 0) := by
  cases hplace with
  | inRun g hleaf hopened hafter hpending hgap hstart hkind hcanonical =>
      have hflush := h.closeLeaf_flushRun
      rw [run_closeLeaf_of_leaf hleaf] at hflush
      exact ⟨_, hcanonical, hflush, by simp, by simp [hpending], by simp [hpending]⟩
  | belowRun hleaf hopened hafter hpending hblank hgap hrun hcanonical =>
      have hflush := h.closeLeaf_flushRun
      rw [closeLeaf_of_leaf_eq_none hleaf] at hflush ⊢
      refine ⟨_, hcanonical, hflush, by simp, ?_, fun _ => hgap⟩
      intro _ _
      obtain ⟨c, cs, hcs⟩ := List.exists_cons_of_ne_nil hpending
      refine ⟨c, by simp [hcs], ?_⟩
      rintro rfl
      exact hblank (by simp [hcs])
  | between hleaf hrun hcanonical hgap hfirst hnext hapart =>
      rw [closeLeaf_of_leaf_eq_none hleaf, flushRun_of_run_eq_nil hrun]
      exact ⟨runs, hcanonical, h, hfirst, fun hne hpending => (hnext hne hpending).2, hgap⟩

theorem Place.pushSentinel (hplace : Place a runs) (h : Holds a runs) (opened : Section) :
    ∃ runs', Holds (a.pushSentinel opened) runs' ∧ Place (a.pushSentinel opened) runs' := by
  obtain ⟨runs', hcanonical, hholds, -⟩ := hplace.ended h
  refine ⟨runs', ⟨hholds.groups, hholds.nextCluster, hholds.words, hholds.trailing, ?_⟩, ?_⟩
  · simp [Assembly.pushSentinel]
  · refine .between ?_ rfl hcanonical ?_ ?_ ?_ ?_
    · simp [Assembly.pushSentinel, flushRun]
    · simp [Assembly.pushSentinel]
    · simp [Assembly.pushSentinel]
    · simp [Assembly.pushSentinel]
    · simp [Assembly.pushSentinel]

theorem Place.pushBlank (hplace : Place a runs) (h : Holds a runs) :
    ∃ runs', Holds a.pushBlank runs' ∧ Place a.pushBlank runs' := by
  by_cases hopened : a.opened = some .wordGroups
  · obtain ⟨runs', hcanonical, hholds, hfirst, hnext, hgap⟩ := hplace.ended h
    by_cases hpending : a.pending = []
    · rw [pushBlank_of_pending_eq_nil hopened hpending]
      refine ⟨runs', hholds.waiting (by simp) _, ?_⟩
      refine .between (leaf_closeLeaf a) rfl hcanonical ?_ ?_ ?_ ?_
      · simp [waiting]
      · simp [waiting]
      · simp [waiting]
      · simp [waiting]
    · rw [pushBlank_of_pending_ne_nil hopened hpending]
      have hnotes : ∀ c ∈ a.pending ++ [[]], IsNote c := forall_mem_concat h.notes (Or.inl rfl)
      refine ⟨runs', hholds.waiting hnotes _, ?_⟩
      refine .between (leaf_closeLeaf a) rfl hcanonical ?_ ?_ ?_ ?_
      · intro _
        exact hgap hpending
      · intro hnil
        have hhead := hfirst hnil
        obtain ⟨c, cs, hcs⟩ := List.exists_cons_of_ne_nil hpending
        simpa [waiting, hcs] using hhead
      · intro hne _
        obtain ⟨c, hc, hsome⟩ := hnext hne hpending
        exact ⟨by simp [waiting], c, by simp [waiting, hc], hsome⟩
      · simp [waiting]
  · rw [pushBlank_of_opened_ne hopened]
    refine ⟨runs, ⟨h.groups, h.nextCluster, h.words, h.trailing, h.notes⟩, ?_⟩
    cases hplace with
    | inRun g hleaf hopened' => exact absurd hopened' hopened
    | belowRun hleaf hopened' => exact absurd hopened' hopened
    | between hleaf hrun hcanonical hgap hfirst hnext hapart =>
        refine .between hleaf hrun hcanonical hgap hfirst hnext ?_
        intro _ hopened'
        exact absurd hopened' hopened

theorem hasGroups_eq_of_holds (h : Holds a runs) (hrun : a.run = [])
    (hcanonical : Group.Canonical runs) : a.hasGroups = !runs.isEmpty := by
  by_cases hnil : runs = []
  · simp [hasGroups, hrun, h.groups, hnil, Group.numberRuns]
  · have hne := numberRuns_ne_nil hcanonical.isRun hnil
    rw [hasGroups, h.groups, hrun, List.isEmpty_eq_false_iff.mpr hne,
      List.isEmpty_eq_false_iff.mpr hnil]
    rfl

theorem Place.pushComment (hplace : Place a runs) (h : Holds a runs) {written : Text}
    (hwritten : ReadsAs written (.comment written)) :
    Holds (a.pushComment written) runs ∧ Place (a.pushComment written) runs := by
  by_cases hskip : a.afterSentinel = true ∨ a.opened ≠ some .wordGroups
  · rw [pushComment_of_skip hskip]
    exact ⟨h, hplace⟩
  · have hafter : a.afterSentinel = false := by
      simpa using fun htrue => hskip (Or.inl htrue)
    have hopened : a.opened = some .wordGroups := by
      by_contra hne
      exact hskip (Or.inr hne)
    have hsome := ne_nil_of_readsAs_comment hwritten
    rw [pushComment_of_opened hafter hopened]
    constructor
    · refine h.closeLeaf.waiting (forall_mem_concat ?_ (Or.inr hwritten)) 0
      refine List.forall_mem_append.mpr ⟨h.notes, ?_⟩
      intro c hc
      by_cases hgroups : a.closeLeaf.hasGroups
      · rw [if_pos hgroups] at hc
        exact Or.inl (List.eq_of_mem_replicate hc)
      · simp [hgroups] at hc
    · cases hplace with
      | inRun g hleaf hopened' hafter' hpending hgap hstart hkind hcanonical =>
          have hrun := run_closeLeaf_of_leaf hleaf
          rw [← hrun] at hcanonical
          refine .belowRun (leaf_closeLeaf a) ((opened_closeLeaf a).trans hopened) rfl ?_ ?_ rfl ?_
            hcanonical
          · simp [waiting]
          · simp [waiting, hpending, hgap, hsome.symm]
          · simp [waiting, hrun]
      | belowRun hleaf hopened' hafter' hpending hblank hgap hrun hcanonical =>
          rw [closeLeaf_of_leaf_eq_none hleaf]
          refine .belowRun hleaf hopened rfl ?_ ?_ rfl hrun hcanonical
          · simp [waiting]
          · simp [waiting, hgap, hblank, hsome.symm]
      | between hleaf hrun hcanonical hgap hfirst hnext hapart =>
          have hgroups := hasGroups_eq_of_holds h hrun hcanonical
          rw [closeLeaf_of_leaf_eq_none hleaf, hgroups]
          refine .between hleaf hrun hcanonical (fun _ => rfl) ?_ ?_ ?_
          · rintro rfl
            have hhead := hfirst rfl
            cases hpending : a.pending with
            | nil => simp [waiting, hsome]
            | cons c cs => simpa [waiting, hpending] using hhead
          · intro hne _
            refine ⟨?_, written, by simp [waiting], hsome⟩
            by_cases hpending : a.pending = []
            · have hpos := hapart hne hopened hafter hpending
              have hmem : ([] : Text) ∈ List.replicate a.gap [] := by
                simp only [List.mem_replicate, and_true]
                omega
              simp [waiting, hne, hmem]
            · simp [waiting, (hnext hne hpending).1]
          · simp [waiting]

theorem Place.pushWord (hplace : Place a runs) (h : Holds a runs) {word : Text}
    (hopened : a.opened = some .globalFilter) (hword : IsWord word) :
    Holds (a.pushWord word) runs ∧ Place (a.pushWord word) runs := by
  have hne : a.opened ≠ some .wordGroups := by simp [hopened]
  constructor
  · exact ⟨h.groups, h.nextCluster, forall_mem_concat h.words hword, h.trailing, h.notes⟩
  · cases hplace with
    | inRun g hleaf hopened' => exact absurd hopened' hne
    | belowRun hleaf hopened' => exact absurd hopened' hne
    | between hleaf hrun hcanonical hgap hfirst hnext hapart =>
        refine .between hleaf hrun hcanonical hgap hfirst hnext ?_
        intro _ hopened'
        exact absurd hopened' hne

theorem Place.pushContent_extend {g : OpenGroup} {kind : OpenKind} (hplace : Place a runs)
    (h : Holds a runs) (hinput : IsInput content) (hleaf : a.leaf = some g)
    (hkind : g.kind.extend? (LineClass.ofContent content) = some kind) :
    Holds (a.pushContent content) runs ∧ Place (a.pushContent content) runs := by
  cases hplace with
  | belowRun hnone => simp [hnone] at hleaf
  | between hnone => simp [hnone] at hleaf
  | inRun g' hleaf' hopened hafter hpending hgap hstart hreadable hcanonical =>
      obtain rfl : g = g' := Option.some.inj (hleaf.symm.trans hleaf')
      have hne : a.opened ≠ some .globalFilter := by simp [hopened]
      rw [Assembly.pushContent_extend hne hleaf hkind, enter_of_opened hopened hafter]
      refine ⟨⟨h.groups, h.nextCluster, h.words, h.trailing, h.notes⟩, ?_⟩
      obtain ⟨hreadable', hopens⟩ := OpenKind.readable_of_extend? hinput hreadable hkind
      have hopen : Group.IsRun (a.run ++ [⟨g.kind.close, g.start, g.comments, none⟩]) :=
        hcanonical.isRun _ (by simp)
      obtain ⟨hrun, hlast, hfresh, hfollows⟩ := Group.isRun_concat_iff.mp hopen
      refine .inRun { g with kind } rfl hopened hafter hpending hgap hstart hreadable' ?_
      refine hcanonical.replaceLast ?_ ?_
      · have hclosed := OpenKind.readable_close hreadable'
        refine Group.isRun_concat_iff.mpr ⟨hrun, ⟨hclosed, hlast.comments⟩, hfresh, ?_⟩
        intro last hmem
        rcases hfollows last hmem with ⟨hnone, hbelow⟩ | hnotes
        · exact Or.inl ⟨hnone, hopens _ hbelow⟩
        · exact Or.inr hnotes
      · cases a.run with
        | nil => rfl
        | cons first rest => rfl

theorem Place.pushContent_open {kind : OpenKind} (hplace : Place a runs) (h : Holds a runs)
    (hinput : IsInput content) (hopened : a.opened ≠ some .globalFilter)
    (hkind : OpenKind.ofClass? (LineClass.ofContent content) = some kind)
    (hleaf : ∀ g ∈ a.leaf, g.kind.extend? (LineClass.ofContent content) = none) :
    Holds (a.pushContent content) runs ∧ Place (a.pushContent content) runs := by
  have hreadable := OpenKind.readable_of_ofClass? hinput hkind
  have hnew : Group.Readable ⟨kind.close, 0, a.pending, none⟩ :=
    ⟨OpenKind.readable_close hreadable, h.notes⟩
  have hclosed := h.closeLeaf
  have hopened' : a.closeLeaf.opened ≠ some .globalFilter := by simpa using hopened
  rw [Assembly.pushContent_open hopened hkind hleaf]
  refine ⟨⟨hclosed.groups, hclosed.nextCluster, hclosed.words, hclosed.trailing, ?_⟩, ?_⟩
  · simp [begin]
  · refine .inRun ⟨0, a.pending, kind⟩ rfl (opened_begin hopened' _) rfl rfl rfl rfl hreadable ?_
    -- The run above is kept when it is open, and the group starts one
    -- otherwise.
    have hextend : ∀ run, Group.Canonical (runs ++ [run]) → run ≠ [] →
        (∀ last ∈ run.getLast?, last.Follows ⟨kind.close, 0, a.pending, none⟩) →
        Group.Canonical (runs ++ [run ++ [⟨kind.close, 0, a.pending, none⟩]]) := by
      intro run hcanonical hne hfollows
      refine hcanonical.replaceLast ?_ ?_
      · exact Group.isRun_concat_iff.mpr
          ⟨fun _ => hcanonical.isRun run (by simp), hnew, ⟨rfl, rfl⟩, hfollows⟩
      · obtain ⟨first, rest, rfl⟩ := List.exists_cons_of_ne_nil hne
        rfl
    cases hplace with
    | inRun g hleaf' hopened hafter hpending hgap hstart hkind' hcanonical =>
        have hrun := run_closeLeaf_of_leaf hleaf'
        have hbelow := OpenKind.opensBelow_of_extend?_eq_none hkind (hleaf g hleaf')
        rw [← hrun] at hcanonical
        refine hextend a.closeLeaf.run hcanonical (by simp [hrun]) ?_
        intro last hlast
        obtain rfl : (⟨g.kind.close, g.start, g.comments, none⟩ : Group) = last := by
          simpa [hrun] using hlast
        exact Or.inl ⟨hpending, hbelow⟩
    | belowRun hleaf' hopened hafter hpending hblank hgap hrun hcanonical =>
        have hsame := closeLeaf_of_leaf_eq_none hleaf'
        refine hextend a.closeLeaf.run (by rwa [hsame]) (by rwa [hsame]) ?_
        intro last _
        exact Or.inr ⟨hpending, hblank⟩
    | between hleaf' hrun hcanonical hgap hfirst hnext hapart =>
        have hnil : a.closeLeaf.run = [] := by rw [closeLeaf_of_leaf_eq_none hleaf', hrun]
        have hsingle : Group.IsRun ([] ++ [⟨kind.close, 0, a.pending, none⟩]) :=
          Group.isRun_concat_iff.mpr ⟨by simp, hnew, ⟨rfl, rfl⟩, by simp⟩
        have hopen : (a.closeLeaf.begin ⟨0, a.pending, kind⟩).run = [] := hnil
        rw [hopen]
        refine hcanonical.concat hsingle ?_ ?_
        · intro hruns g hg
          obtain rfl : (⟨kind.close, 0, a.pending, none⟩ : Group) = g := by simpa using hg
          exact hfirst hruns
        · intro hruns g hg
          obtain rfl : (⟨kind.close, 0, a.pending, none⟩ : Group) = g := by simpa using hg
          by_cases hpending : a.pending = []
          · exact Or.inl hpending
          · exact Or.inr (hnext hruns hpending)

/-- Every line leads from a place to a place. -/
theorem Place.pushContent (hplace : Place a runs) (h : Holds a runs) (hinput : IsInput content) :
    ∃ runs', Holds (a.pushContent content) runs' ∧ Place (a.pushContent content) runs' := by
  rcases LineClass.ofContent_cases content with
    ⟨-, hblank⟩ | ⟨opened, -, hsentinel⟩ | ⟨-, hcomment⟩ | hcontent
  · rw [pushContent_blank hblank]
    exact hplace.pushBlank h
  · rw [pushContent_sentinel hsentinel]
    exact hplace.pushSentinel h opened
  · rw [pushContent_comment hcomment]
    exact ⟨runs, hplace.pushComment h (readsAs_comment hinput.not_mem_lf hcomment)⟩
  · by_cases hopened : a.opened = some .globalFilter
    · rw [pushContent_word hcontent hopened]
      exact ⟨runs, hplace.pushWord h hopened (isWord_trim hinput.not_mem_lf hcontent)⟩
    · obtain ⟨kind, hkind⟩ := exists_ofClass? hcontent
      cases hleaf : a.leaf with
      | none =>
          exact ⟨runs, hplace.pushContent_open h hinput hopened hkind (by simp [hleaf])⟩
      | some g =>
          cases hextend : g.kind.extend? (LineClass.ofContent content) with
          | some kind' => exact ⟨runs, hplace.pushContent_extend h hinput hleaf hextend⟩
          | none =>
              have hall : ∀ g' ∈ a.leaf,
                  g'.kind.extend? (LineClass.ofContent content) = none := by
                intro g' hg'
                obtain rfl : g = g' := by simpa [hleaf] using hg'
                exact hextend
              exact ⟨runs, hplace.pushContent_open h hinput hopened hkind hall⟩

theorem Place.read {contents : List Text} (hplace : Place a runs) (h : Holds a runs)
    (hinput : ∀ content ∈ contents, IsInput content) :
    ∃ runs', Holds (a.read contents) runs' ∧ Place (a.read contents) runs' := by
  induction contents generalizing a runs with
  | nil => exact ⟨runs, h, hplace⟩
  | cons content contents ih =>
      obtain ⟨runs', hholds, hplace'⟩ := hplace.pushContent h (hinput content (by simp))
      exact ih hplace' hholds fun c hc => hinput c (by simp [hc])

theorem place_empty : Holds empty [] ∧ Place empty [] := by
  refine ⟨⟨rfl, rfl, by simp [empty, KeywordList.empty], rfl, by simp [empty]⟩, ?_⟩
  refine .between rfl rfl Group.canonical_nil ?_ ?_ ?_ ?_
  · simp [empty]
  · simp [empty]
  · simp
  · simp

end Steps

end Assembly

namespace KeywordList

/-- A list that is read back from its lines. -/
def Canonical (l : KeywordList) : Prop :=
  (∀ w ∈ l.globalFilter, IsWord w) ∧
    ∃ runs, Group.Canonical runs ∧ l.groups = Group.numberRuns 0 runs ∧ IsTrailing runs l.trailing

end KeywordList

namespace Assembly

/-- What waits at the end stands behind the groups, without the blank line
directly below them. -/
theorem trailing_finish (a : Assembly) :
    a.finish.trailing = a.pending ∨
      a.closeLeaf.flushRun.list.groups ≠ [] ∧ a.pending = [] :: a.finish.trailing := by
  have hpending : a.closeLeaf.flushRun.pending = a.pending := pending_closeLeaf a
  simp only [Assembly.finish, hpending]
  split
  · next hdrop =>
      obtain ⟨rest, hrest⟩ := List.head?_eq_some_iff.mp hdrop.2
      exact Or.inr ⟨by simpa using hdrop.1, by simp [hrest]⟩
  · exact Or.inl rfl

/-- The end of the text leaves a canonical list. -/
theorem Place.finish {a : Assembly} {runs : List (List Group)} (hplace : Place a runs)
    (h : Holds a runs) : a.finish.Canonical := by
  obtain ⟨runs', hcanonical, hholds, hfirst, hnext, -⟩ := hplace.ended h
  refine ⟨hholds.words, runs', hcanonical, hholds.groups, ?_⟩
  rcases trailing_finish a with hsame | ⟨hgroups, hpending⟩
  · rw [hsame]
    refine ⟨h.notes, hfirst, ?_⟩
    intro hne
    by_cases hpending : a.pending = []
    · exact Or.inl hpending
    · exact Or.inr (hnext hne hpending)
  · refine ⟨fun c hc => h.notes c (by simp [hpending, hc]), ?_, ?_⟩
    · rintro rfl
      exact absurd hholds.groups hgroups
    · intro hne
      obtain ⟨c, hc, hsome⟩ := hnext hne (by simp [hpending])
      rw [hpending, List.mem_cons] at hc
      exact Or.inr ⟨c, hc.resolve_left hsome, hsome⟩

end Assembly

namespace KeywordList

/-- Whatever contents are read, they give a canonical list. -/
theorem canonical_read {contents : List Text} (hinput : ∀ content ∈ contents, IsInput content) :
    (Assembly.empty.read contents).finish.Canonical := by
  obtain ⟨hholds, hplace⟩ := Assembly.place_empty
  obtain ⟨runs, hholds', hplace'⟩ := hplace.read hholds hinput
  exact hplace'.finish hholds'

end KeywordList

end Marginalia.Keywords
