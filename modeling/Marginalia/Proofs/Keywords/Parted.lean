import Marginalia.Proofs.Keywords.Blocks

/-!
# What parts the groups of a run

Two groups of a run that was read have no blank line between them.  Either a
comment stands there, or the second group opens below the first by its shape
alone.  `Fuses` says of two groups that neither is the case; no two neighbours
in a list that was read do, so none of them merge.
-/

namespace Marginalia.Keywords

namespace Group

def SameRun (above below : Group) : Prop :=
  (above.related.any fun r => below.inCluster r.cluster) = true

/-- Two groups of a run that are read as one when the second is written below
the first. -/
def Fuses (above below : Group) : Prop :=
  below.comments = [] ∧ above.SameRun below ∧ ¬above.kind.OpensBelow below.kind

instance (above below : Group) : Decidable (above.SameRun below) :=
  inferInstanceAs (Decidable (_ = true))

instance (above below : Group) : Decidable (above.Fuses below) :=
  inferInstanceAs (Decidable (_ ∧ _ ∧ ¬_))

theorem sameRun_iff {above below : Group} :
    above.SameRun below ↔
      ∃ r ∈ above.related, ∃ r' ∈ below.related, r'.cluster = r.cluster := by
  cases habove : above.related with
  | none => simp [SameRun, habove]
  | some r => simp [SameRun, habove, inCluster]

theorem not_sameRun_of_related_eq_none {above below : Group}
    (h : above.related = none ∨ below.related = none) : ¬above.SameRun below := by
  intro hrun
  obtain ⟨r, hr, r', hr', -⟩ := sameRun_iff.mp hrun
  rcases h with h | h
  · simp [h] at hr
  · simp [h] at hr'

theorem not_fuses_of_related_eq_none {above below : Group}
    (h : above.related = none ∨ below.related = none) : ¬above.Fuses below :=
  fun hfuses => not_sameRun_of_related_eq_none h hfuses.2.1

/-- Without a comment the second group opens below the first. -/
def StaysApart (above below : Group) : Prop :=
  below.comments = [] → above.kind.OpensBelow below.kind

theorem StaysApart.not_fuses {above below : Group} (h : above.StaysApart below) :
    ¬above.Fuses below ∧ ¬above.Merges below :=
  ⟨fun hfuses => hfuses.2.2 (h hfuses.1), fun hmerges => hmerges.2.2 (h hmerges.1)⟩

/-- A run as it is read, before it is numbered. -/
structure IsParted (run : List Group) : Prop where
  unnumbered : ∀ g ∈ run, g.related = none
  apart : run.IsChain StaysApart

theorem isParted_nil : IsParted [] :=
  ⟨by simp, List.isChain_nil⟩

theorem isParted_concat_iff {run : List Group} {g : Group} :
    IsParted (run ++ [g]) ↔
      IsParted run ∧ g.related = none ∧ ∀ last ∈ run.getLast?, last.StaysApart g := by
  constructor
  · intro h
    obtain ⟨hchain, -, hlast⟩ := List.isChain_append.mp h.apart
    exact ⟨⟨fun g' hg' => h.unnumbered g' (by simp [hg']), hchain⟩, h.unnumbered g (by simp),
      fun last hmem => hlast last hmem g rfl⟩
  · rintro ⟨hrun, hrelated, hlast⟩
    refine ⟨forall_mem_concat hrun.unnumbered hrelated, List.isChain_append.mpr ?_⟩
    refine ⟨hrun.apart, List.isChain_singleton g, ?_⟩
    intro last hmem g' hg'
    obtain rfl : g = g' := by simpa using hg'
    exact hlast last hmem

/-! ## Numbered runs -/

theorem isChain_numberRun_iff {R : GroupKind × List Text → GroupKind × List Text → Prop}
    (cluster : Nat) (run : List Group) :
    ((Assembly.numberRun cluster run).IsChain fun above below =>
        R (above.kind, above.comments) (below.kind, below.comments)) ↔
      run.IsChain fun above below =>
        R (above.kind, above.comments) (below.kind, below.comments) := by
  have hcontent : (Assembly.numberRun cluster run).map (fun g => (g.kind, g.comments)) =
      run.map fun g => (g.kind, g.comments) := Assembly.map_numberRun (fun _ _ => rfl) cluster run
  rw [← List.isChain_map (fun g : Group => (g.kind, g.comments)), hcontent, List.isChain_map]

theorem IsParted.isChain_numberRun {run : List Group} (h : IsParted run) (cluster : Nat) :
    (Assembly.numberRun cluster run).IsChain
      fun above below => ¬above.Fuses below ∧ ¬above.Merges below := by
  have hnumbered : (Assembly.numberRun cluster run).IsChain StaysApart :=
    (isChain_numberRun_iff (R := fun above below => below.2 = [] → above.1.OpensBelow below.1)
      cluster run).mpr h.apart
  exact hnumbered.imp fun _ _ hapart => hapart.not_fuses

/-- The last group of a run does not continue it, so a blank line follows. -/
theorem IsParted.not_merges_of_getLast? {run : List Group} (h : IsParted run) {cluster : Nat}
    {last : Group} (hlast : last ∈ (Assembly.numberRun cluster run).getLast?) (below : Group) :
    ¬last.Merges below := by
  have hcontinues : (last.related.map (·.continues)).getD false = false := by
    unfold Assembly.numberRun at hlast
    split at hlast
    · next hlength =>
        rw [List.getLast?_mapIdx] at hlast
        obtain ⟨g, -, rfl⟩ := Option.map_eq_some_iff.mp hlast
        have htotal : run.length - 1 + 1 = run.length := by omega
        simp [Related.continues, htotal]
    · rw [h.unnumbered last (List.mem_of_getLast? hlast)]
      rfl
  rintro ⟨hcomments, hblank, -⟩
  simp [blankAfter, hcomments, hcontinues] at hblank

theorem IsParted.cluster_of_mem_numberRun {run : List Group} (h : IsParted run) {cluster : Nat}
    {g : Group} (hg : g ∈ Assembly.numberRun cluster run) {r : Related} (hr : r ∈ g.related) :
    r.cluster = cluster ∧ nextCluster cluster run = cluster + 1 := by
  unfold Assembly.numberRun at hg
  split at hg
  · next hlength =>
      obtain ⟨i, hi, rfl⟩ := List.mem_mapIdx.mp hg
      obtain rfl := Option.some.inj hr
      exact ⟨rfl, if_pos hlength⟩
  · rw [h.unnumbered g hg] at hr
    cases hr

theorem le_nextCluster (cluster : Nat) (run : List Group) : cluster ≤ nextCluster cluster run := by
  unfold nextCluster
  split
  · exact Nat.le_succ cluster
  · exact Nat.le_refl cluster

variable {run : List Group} {runs : List (List Group)}

theorem le_cluster_of_mem_numberRuns (h : ∀ run ∈ runs, IsParted run) (cluster : Nat) :
    ∀ g ∈ numberRuns cluster runs, ∀ r ∈ g.related, cluster ≤ r.cluster := by
  induction runs generalizing cluster with
  | nil => simp [numberRuns]
  | cons run runs ih =>
      obtain ⟨hrun, hruns⟩ := List.forall_mem_cons.mp h
      intro g hg r hr
      rcases List.mem_append.mp hg with hg | hg
      · exact Nat.le_of_eq (hrun.cluster_of_mem_numberRun hg hr).1.symm
      · exact (le_nextCluster cluster run).trans (ih hruns (nextCluster cluster run) g hg r hr)

/-- Two runs have different numbers. -/
theorem IsParted.not_sameRun_of_mem (hrun : IsParted run) (hruns : ∀ run ∈ runs, IsParted run)
    {cluster : Nat} {above below : Group} (habove : above ∈ Assembly.numberRun cluster run)
    (hbelow : below ∈ numberRuns (nextCluster cluster run) runs) : ¬above.SameRun below := by
  intro hsame
  obtain ⟨r, hr, r', hr', hcluster⟩ := sameRun_iff.mp hsame
  obtain ⟨hfirst, hsecond⟩ := hrun.cluster_of_mem_numberRun habove hr
  have hless := le_cluster_of_mem_numberRuns hruns _ below hbelow r' hr'
  omega

/-- In numbered runs no neighbours fuse: two of one run stay apart, and two runs
have different numbers. -/
theorem isChain_numberRuns (h : ∀ run ∈ runs, IsParted run) (cluster : Nat) :
    (numberRuns cluster runs).IsChain
      fun above below => ¬above.Fuses below ∧ ¬above.Merges below := by
  induction runs generalizing cluster with
  | nil => exact List.isChain_nil
  | cons run runs ih =>
      obtain ⟨hrun, hruns⟩ := List.forall_mem_cons.mp h
      refine List.isChain_append.mpr ⟨hrun.isChain_numberRun cluster, ih hruns _, ?_⟩
      intro above habove below hbelow
      refine ⟨fun hfuses => ?_, hrun.not_merges_of_getLast? habove below⟩
      exact hrun.not_sameRun_of_mem hruns (List.mem_of_getLast? habove)
        (List.mem_of_mem_head? hbelow) hfuses.2.1

end Group

namespace Assembly

/-- The groups of an assembly are parted runs, the open group counted to the
last of them. -/
structure Parted (a : Assembly) : Prop where
  groups : ∃ runs, a.list.groups = Group.numberRuns 0 runs ∧
    a.nextCluster = runs.foldl Group.nextCluster 0 ∧ ∀ run ∈ runs, Group.IsParted run
  run : Group.IsParted a.closeLeaf.run
  /-- Only a comment closes a group and leaves its run open. -/
  waiting : a.run ≠ [] → a.leaf = none → a.pending ≠ []

variable {a b : Assembly}

theorem run_closeLeaf_congr (hrun : b.run = a.run) (hleaf : b.leaf = a.leaf) :
    b.closeLeaf.run = a.closeLeaf.run := by
  cases hopen : a.leaf with
  | none =>
      rw [closeLeaf_of_leaf_eq_none hopen, closeLeaf_of_leaf_eq_none (hleaf.trans hopen), hrun]
  | some g =>
      rw [run_closeLeaf_of_leaf hopen, run_closeLeaf_of_leaf (hleaf.trans hopen), hrun]

theorem closeLeaf_waiting (pending : List Text) (gap : Nat) :
    (a.closeLeaf.waiting pending gap).closeLeaf = a.closeLeaf.waiting pending gap :=
  closeLeaf_of_leaf_eq_none a.leaf_closeLeaf

namespace Parted

/-- The groups of the runs that have ended are not touched. -/
theorem congr (h : a.Parted) (hlist : b.list.groups = a.list.groups)
    (hnext : b.nextCluster = a.nextCluster) (hrun : Group.IsParted b.closeLeaf.run)
    (hwaiting : b.run ≠ [] → b.leaf = none → b.pending ≠ []) : b.Parted := by
  refine ⟨?_, hrun, hwaiting⟩
  rw [hlist, hnext]
  exact h.groups

theorem flushed (h : a.Parted) (hlist : b.list.groups = a.closeLeaf.flushRun.list.groups)
    (hnext : b.nextCluster = a.closeLeaf.flushRun.nextCluster) (hrun : b.run = [])
    (hleaf : b.leaf = none) : b.Parted := by
  obtain ⟨runs, hgroups, hnumber, hparted⟩ := h.groups
  obtain ⟨hgroups', hnumber'⟩ := numberRuns_closeLeaf_flushRun hgroups hnumber
  refine ⟨⟨runs ++ [a.closeLeaf.run], hlist.trans hgroups', hnext.trans hnumber',
    forall_mem_concat hparted h.run⟩, ?_, ?_⟩
  · rw [closeLeaf_of_leaf_eq_none hleaf, hrun]
    exact Group.isParted_nil
  · exact fun hne => absurd hrun hne

theorem pushBlank (h : a.Parted) : a.pushBlank.Parted := by
  rcases a.pushBlank_cases with ⟨-, hpush⟩ | ⟨-, pending, gap, -, hpush⟩
  · rw [hpush]
    have hrun : ({ a with afterSentinel := false } : Assembly).closeLeaf.run = a.closeLeaf.run :=
      run_closeLeaf_congr rfl rfl
    exact h.congr rfl rfl (by rw [hrun]; exact h.run) h.waiting
  · rw [hpush]
    exact h.flushed rfl rfl rfl a.leaf_closeLeaf

theorem pushSentinel (h : a.Parted) (opened : Section) : (a.pushSentinel opened).Parted :=
  h.flushed rfl rfl rfl a.leaf_closeLeaf

theorem pushComment (h : a.Parted) (written : Text) : (a.pushComment written).Parted := by
  by_cases hskip : a.afterSentinel = true ∨ a.opened ≠ some .wordGroups
  · rw [pushComment_of_skip hskip]
    exact h
  · obtain ⟨hafter, hopened⟩ := not_or.mp hskip
    rw [pushComment_of_opened (by simpa using hafter) (by simpa using hopened)]
    apply h.congr
    · exact congrArg KeywordList.groups a.list_closeLeaf
    · exact a.nextCluster_closeLeaf
    · rw [closeLeaf_waiting]
      exact h.run
    · simp [Assembly.waiting]

theorem pushWord (h : a.Parted) (word : Text) : (a.pushWord word).Parted := by
  have hrun : (a.pushWord word).closeLeaf.run = a.closeLeaf.run := run_closeLeaf_congr rfl rfl
  exact h.congr rfl rfl (by rw [hrun]; exact h.run) h.waiting

theorem extend (h : a.Parted) {g : OpenGroup} {kind : OpenKind} {line : LineClass}
    (hleaf : a.leaf = some g) (hkind : g.kind.extend? line = some kind) :
    ({ a.enter with leaf := some { g with kind } } : Assembly).Parted := by
  have hrun := h.run
  rw [run_closeLeaf_of_leaf hleaf, Group.isParted_concat_iff] at hrun
  obtain ⟨hrun, -, hlast⟩ := hrun
  refine h.congr rfl rfl ?_ ?_
  · rw [run_closeLeaf_of_leaf rfl, Group.isParted_concat_iff]
    refine ⟨hrun, rfl, ?_⟩
    intro last hmem hcomments
    exact OpenKind.opensBelow_close_of_extend? hkind (hlast last hmem hcomments)
  · intro _ hnone
    cases hnone

theorem begin (h : a.Parted) {kind : OpenKind} {line : LineClass} (start : Nat)
    (hkind : OpenKind.ofClass? line = some kind)
    (hleaf : ∀ g ∈ a.leaf, g.kind.extend? line = none) :
    (a.closeLeaf.begin ⟨start, a.pending, kind⟩).Parted := by
  apply h.congr
  · exact congrArg KeywordList.groups a.list_closeLeaf
  · exact a.nextCluster_closeLeaf
  · rw [run_closeLeaf_of_leaf rfl, Group.isParted_concat_iff]
    refine ⟨h.run, rfl, ?_⟩
    intro last hmem hpending
    have hlast : last ∈ a.closeLeaf.run.getLast? := hmem
    cases hopen : a.leaf with
    | none =>
        -- below a closed group of the run a comment waits
        rw [closeLeaf_of_leaf_eq_none hopen] at hlast
        have hne : a.run ≠ [] := List.ne_nil_of_mem (List.mem_of_getLast? hlast)
        exact absurd hpending (h.waiting hne hopen)
    | some g =>
        rw [run_closeLeaf_of_leaf hopen, List.getLast?_concat] at hlast
        obtain rfl := Option.some.inj hlast
        exact OpenKind.opensBelow_of_extend?_eq_none hkind (hleaf g hopen)
  · intro _ hnone
    cases hnone

theorem push (h : a.Parted) (l : Line) : (a.push l).Parted := by
  rcases LineClass.ofContent_cases l.content with
    ⟨-, hblank⟩ | ⟨opened, -, hsentinel⟩ | ⟨-, hcomment⟩ | hcontent
  · rw [push_blank hblank]
    exact h.pushBlank
  · rw [push_sentinel hsentinel]
    exact h.pushSentinel opened
  · rw [push_comment hcomment]
    exact h.pushComment _
  · by_cases hglobal : a.opened = some .globalFilter
    · rw [push_word hcontent hglobal]
      exact h.pushWord _
    · rcases push_content_cases hcontent hglobal with
        ⟨g, kind, hleaf, hkind, hpush⟩ | ⟨kind, hkind, hleaf, hpush⟩
      · rw [hpush]
        exact h.extend hleaf hkind
      · rw [hpush]
        exact h.begin l.index hkind hleaf

theorem empty : Assembly.empty.Parted :=
  ⟨⟨[], rfl, rfl, by simp⟩, Group.isParted_nil, fun hne => absurd rfl hne⟩

theorem foldl_push (h : a.Parted) (ls : List Line) : (ls.foldl Assembly.push a).Parted := by
  induction ls generalizing a with
  | nil => exact h
  | cons l ls ih => exact ih (h.push l)

end Parted

end Assembly

namespace KeywordList

theorem exists_groups_ofText_eq (t : Text) :
    ∃ runs, (ofText t).groups = Group.numberRuns 0 runs ∧ ∀ run ∈ runs, Group.IsParted run := by
  have hread := Assembly.Parted.empty.foldl_push t.lines
  have hended : (t.lines.foldl Assembly.push Assembly.empty).closeLeaf.flushRun.Parted :=
    hread.flushed rfl rfl rfl (Assembly.leaf_closeLeaf _)
  obtain ⟨runs, hgroups, -, hparted⟩ := hended.groups
  exact ⟨runs, hgroups, hparted⟩

/-- No two neighbours in a list that was read fuse, and none merge. -/
theorem isChain_groups_ofText (t : Text) :
    (ofText t).groups.IsChain fun above below => ¬above.Fuses below ∧ ¬above.Merges below := by
  obtain ⟨runs, hgroups, hparted⟩ := exists_groups_ofText_eq t
  rw [hgroups]
  exact Group.isChain_numberRuns hparted 0

end KeywordList

end Marginalia.Keywords
