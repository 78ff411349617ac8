import Marginalia.Proofs.Keywords.Origin

/-!
# Runs after an edit

What the runs of a list are is told twice: by the places that its groups carry,
and by the blank lines among their comments.  The writer follows the comments
where there are any, and the places only above a group without comments.  In a
list that was read both tell the same.  An edit that adds or takes a group gives
new places, and the comments stay what they were: a group whose comments hold no
blank line goes on with the run of whatever group comes to stand above it.
-/

namespace Marginalia.Keywords

namespace Group

/-- The group has comments without a blank line among them, so it goes on with
the run of the group above it. -/
def Clings (g : Group) : Prop :=
  g.comments ≠ [] ∧ [] ∉ g.comments

/-- Two neighbours are read as one group, or their comments and their places
tell different runs. -/
def Misjoins (above below : Group) : Prop :=
  above.Fuses below ∨
    below.comments ≠ [] ∧ ¬(above.SameRun below ↔ [] ∉ below.comments)

instance (g : Group) : Decidable g.Clings :=
  inferInstanceAs (Decidable (_ ∧ _))

instance (above below : Group) : Decidable (above.Misjoins below) :=
  inferInstanceAs (Decidable (_ ∨ _ ∧ _))

/-- Beside a group that belongs to no run the comments alone tell the runs. -/
theorem misjoins_iff_clings {above below : Group}
    (h : above.related = none ∨ below.related = none) : above.Misjoins below ↔ below.Clings := by
  simp [Misjoins, Clings, not_fuses_of_related_eq_none h, not_sameRun_of_related_eq_none h]

/-! ## Runs that are read after the numbers were given anew -/

/-- Whether two groups are read into one run after the runs were numbered
anew. -/
def meets (above below : Group) : Bool :=
  (!below.comments.isEmpty || above.sameRun below) && !below.comments.contains []

theorem meets_eq_sameRun_iff {above below : Group} :
    above.meets below = above.sameRun below ↔
      (below.comments ≠ [] → (above.SameRun below ↔ [] ∉ below.comments)) := by
  by_cases hnone : below.comments = []
  · simp [meets, hnone]
  · have hmeets : above.meets below = true ↔ [] ∉ below.comments := by simp [meets, hnone]
    rw [Bool.eq_iff_iff, hmeets, sameRun, decide_eq_true_iff]
    exact ⟨fun h _ => h.symm, fun h => (h hnone).symm⟩

/-- The lines tell the runs of groups that were numbered anew. -/
theorem joints_touches_renumber (gs : List Group) :
    joints touches (renumber gs) = joints meets gs := by
  have hfrom : ∀ (gs : List Group) (previous : Option Nat) (before : Nat),
      joints touches (renumberFrom previous before gs) = joints meets gs := by
    intro gs
    induction gs with
    | nil => exact fun _ _ => rfl
    | cons g gs ih =>
        intro previous before
        obtain ⟨g₁, previous₁, before₁, hfirst, -, -, hcontinues⟩ :=
          exists_renumberFrom_cons previous before g gs
        rw [hfirst, joints, joints, ih]
        congr 1
        cases gs with
        | nil => rfl
        | cons next gs =>
            obtain ⟨g₂, previous₂, before₂, hsecond, -, hcomments, -⟩ :=
              exists_renumberFrom_cons previous₁ before₁ next gs
            have hgoes : (g₁.related.map (·.continues)).getD false = g.sameRun next := by
              rw [Bool.eq_iff_iff, hcontinues next rfl, sameRun, decide_eq_true_iff]
            rw [hsecond]
            simp [touches, meets, blankAfter, hcomments, hgoes]
  exact hfrom gs none 0

theorem isChain_and_iff {α : Type} {R S : α → α → Prop} {xs : List α} :
    (xs.IsChain fun a b => R a b ∧ S a b) ↔ xs.IsChain R ∧ xs.IsChain S := by
  induction xs with
  | nil => simp
  | cons x xs ih =>
      simp only [List.isChain_cons, ih]
      constructor
      · rintro ⟨hhead, hR, hS⟩
        exact ⟨⟨fun y hy => (hhead y hy).1, hR⟩, fun y hy => (hhead y hy).2, hS⟩
      · rintro ⟨⟨hheadR, hR⟩, hheadS, hS⟩
        exact ⟨fun y hy => ⟨hheadR y hy, hheadS y hy⟩, hR, hS⟩

/-- No neighbours misjoin when none fuse and the comments tell the runs that the
places tell. -/
theorem isChain_not_misjoins_iff {gs : List Group} :
    (gs.IsChain fun above below => ¬above.Misjoins below) ↔
      (gs.IsChain fun above below => ¬above.Fuses below) ∧
        joints meets gs = joints sameRun gs := by
  rw [joints_eq_iff, ← isChain_and_iff]
  apply List.IsChain.iff
  intro above below
  rw [meets_eq_sameRun_iff, Misjoins, not_or, not_and, not_not]

/-! ## Runs that were read -/

variable {run : List Group} {runs : List (List Group)}

theorem IsRun.isParted (h : IsRun run) : IsParted run := by
  refine ⟨fun g hg => (h.fresh g hg).2, h.follows.imp ?_⟩
  rintro above below (⟨-, hopens⟩ | ⟨hsome, -⟩) hnone
  · exact hopens
  · exact absurd hnone hsome

theorem sameRun_of_mem_numberRun {cluster : Nat} (hlength : 1 < run.length) {above below : Group}
    (habove : above ∈ Assembly.numberRun cluster run)
    (hbelow : below ∈ Assembly.numberRun cluster run) : above.SameRun below := by
  rw [Assembly.numberRun, if_pos hlength] at habove hbelow
  obtain ⟨i, hi, rfl⟩ := List.mem_mapIdx.mp habove
  obtain ⟨j, hj, rfl⟩ := List.mem_mapIdx.mp hbelow
  simp [SameRun, inCluster]

theorem IsRun.isChain_numberRun (h : IsRun run) (cluster : Nat) :
    (Assembly.numberRun cluster run).IsChain fun above below => ¬above.Misjoins below := by
  by_cases hlength : 1 < run.length
  · have hfuses := (h.isParted.isChain_numberRun cluster).imp fun _ _ hnot => hnot.1
    have hfollows : (Assembly.numberRun cluster run).IsChain Follows :=
      (isChain_numberRun_iff (R := fun above below =>
        below.2 = [] ∧ above.1.OpensBelow below.1 ∨ below.2 ≠ [] ∧ [] ∉ below.2)
          cluster run).mpr h.follows
    refine (isChain_and_iff.mpr ⟨hfuses, hfollows⟩).imp_of_mem_imp ?_
    rintro above below habove hbelow ⟨hfuses, hfollows⟩ (hfuses' | ⟨hsome, htells⟩)
    · exact hfuses hfuses'
    · have hsame := sameRun_of_mem_numberRun hlength habove hbelow
      rcases hfollows with ⟨hnone, -⟩ | ⟨-, hblank⟩
      · exact hsome hnone
      · exact htells (iff_of_true hsame hblank)
  · obtain ⟨g, rfl⟩ : ∃ g, run = [g] := by
      have hpos := List.length_pos_iff.mpr h.ne_nil
      exact List.length_eq_one_iff.mp (by omega)
    exact List.isChain_singleton g

/-- In a list that was read the comments tell the runs that the places tell. -/
theorem isChain_not_misjoins_numberRuns (hruns : ∀ run ∈ runs, IsRun run)
    (hstarts : runs.IsChain fun _ run => ∀ g ∈ run.head?, g.StartsRun) (cluster : Nat) :
    (numberRuns cluster runs).IsChain fun above below => ¬above.Misjoins below := by
  induction runs generalizing cluster with
  | nil => exact List.isChain_nil
  | cons run runs ih =>
      obtain ⟨hrun, hruns⟩ := List.forall_mem_cons.mp hruns
      obtain ⟨hstart, hstarts⟩ := List.isChain_cons.mp hstarts
      have hhead := head?_numberRuns (nextCluster cluster run) hruns
      refine List.isChain_append.mpr ⟨hrun.isChain_numberRun cluster, ih hruns hstarts _, ?_⟩
      intro above habove below hbelow hmisjoins
      have hsame : ¬above.SameRun below :=
        hrun.isParted.not_sameRun_of_mem (fun run hrun => (hruns run hrun).isParted)
          (List.mem_of_getLast? habove) (List.mem_of_mem_head? hbelow)
      have hcomments : below.comments = [] ∨ [] ∈ below.comments := by
        rw [Option.mem_def.mp hbelow, Option.map_some] at hhead
        obtain ⟨g, hg, hcomments⟩ := Option.map_eq_some_iff.mp hhead.symm
        cases runs with
        | nil => cases hg
        | cons next runs =>
            obtain ⟨first, rest, rfl⟩ :=
              List.exists_cons_of_ne_nil (hruns next (by simp)).ne_nil
            obtain rfl : first = g := by simpa using hg
            rw [← hcomments]
            exact (hstart _ rfl first rfl).imp_right And.left
      rcases hmisjoins with hfuses | ⟨hsome, htells⟩
      · exact hsame hfuses.2.1
      · rcases hcomments with hnone | hblank
        · exact hsome hnone
        · exact htells (iff_of_false hsame (not_not_intro hblank))

/-! ## Numbers given anew -/

/-- A group whose run was numbered anew is in the run that it was in, if it is
in one. -/
theorem exists_of_getElem?_renumber {gs : List Group} {i : Nat} {g : Group}
    (h : (renumber gs)[i]? = some g) :
    ∃ g₀, gs[i]? = some g₀ ∧ g₀.kind = g.kind ∧
      ∀ r ∈ g.related, ∃ r₀ ∈ g₀.related, r₀.cluster = r.cluster := by
  have hfrom : ∀ (gs : List Group) (previous : Option Nat) (before i : Nat),
      (renumberFrom previous before gs)[i]? = some g →
        ∃ g₀, gs[i]? = some g₀ ∧ g₀.kind = g.kind ∧
          ∀ r ∈ g.related, ∃ r₀ ∈ g₀.related, r₀.cluster = r.cluster := by
    intro gs
    induction gs with
    | nil =>
        intro previous before i h
        cases h
    | cons first gs ih =>
        intro previous before i h
        rw [renumberFrom] at h
        cases hrelated : first.related with
        | none =>
            rw [hrelated] at h
            cases i with
            | zero =>
                obtain rfl : first = g := by simpa using h
                exact ⟨first, rfl, rfl, fun r hr => ⟨r, hr, rfl⟩⟩
            | succ i => exact ih none 0 i h
        | some r₀ =>
            rw [hrelated] at h
            cases i with
            | zero =>
                obtain rfl := Option.some.inj h
                refine ⟨first, rfl, rfl, fun r hr => ⟨r₀, hrelated, ?_⟩⟩
                obtain ⟨-, hr⟩ := Option.ite_none_right_eq_some.mp hr
                obtain rfl := Option.some.inj hr
                rfl
            | succ i => exact ih _ _ i h
  exact hfrom gs none 0 i h

theorem length_renumber (gs : List Group) : (renumber gs).length = gs.length := by
  rw [← List.length_map (fun g : Group => (g.kind, g.comments)), map_renumber, List.length_map]

/-! ## New neighbours -/

/-- The last group above and the first one below misjoin. -/
def MisjoinAcross (front back : List Group) : Prop :=
  ∃ above ∈ front.getLast?, ∃ below ∈ back.head?, above.Misjoins below

instance (front back : List Group) : Decidable (MisjoinAcross front back) :=
  inferInstanceAs (Decidable (∃ above ∈ front.getLast?, ∃ below ∈ back.head?,
    above.Misjoins below))

variable {gs : List Group} {index source target : Nat} {g removed : Group}

theorem isChain_removed_iff_misjoinAcross
    (h : gs.IsChain fun above below => ¬above.Misjoins below) :
    ((gs.take index ++ removed.inheritBlank (gs.drop (index + 1))).IsChain
        fun above below => ¬above.Misjoins below) ↔
      ¬MisjoinAcross (gs.take index) (removed.inheritBlank (gs.drop (index + 1))) :=
  isChain_append_iff_not (h.take index)
    (isChain_inheritBlank (fun _ _ _ hnot => hnot) (h.drop (index + 1)))

/-- A group that comes from outside misjoins only with a group below that clings
to it. -/
theorem isChain_inserted_iff (h : gs.IsChain fun above below => ¬above.Misjoins below)
    (kind : GroupKind) :
    ((gs.insertIdx (min index gs.length) (ofKind kind)).IsChain
        fun above below => ¬above.Misjoins below) ↔ ¬∃ next ∈ gs[index]?, next.Clings := by
  have hlength : (gs.take index).length = min index gs.length := List.length_take
  have hinserted : gs.insertIdx (min index gs.length) (ofKind kind) =
      gs.take index ++ ofKind kind :: gs.drop index := by
    rw [← hlength, ← insertIdx_length_append, List.take_append_drop]
  have habove : ∀ above : Group, ¬above.Misjoins (ofKind kind) := fun above => by
    rw [misjoins_iff_clings (Or.inr rfl)]
    exact fun hclings => hclings.1 rfl
  have hbelow : ∀ below, (ofKind kind).Misjoins below ↔ below.Clings := fun below =>
    misjoins_iff_clings (Or.inl rfl)
  rw [hinserted, List.isChain_append, List.isChain_cons, List.head?_drop]
  simp [h.take, h.drop, habove, hbelow]

/-- Neighbours misjoin after a group left its run when its old neighbours do,
when it clings to the group above its new place, or when the group below clings
to it. -/
theorem isChain_moved_iff_misjoins (h : gs.IsChain fun above below => ¬above.Misjoins below)
    (hg : gs[source]? = some g) (htarget : target < gs.length) (hne : source ≠ target) :
    (((gs.eraseIdx source).insertIdx target { g with related := none }).IsChain
        fun above below => ¬above.Misjoins below) ↔
      ¬(MisjoinAcross (gs.take source) (gs.drop (source + 1)) ∨ 0 < target ∧ g.Clings ∨
        ∃ next ∈ (gs.eraseIdx source)[target]?, next.Clings) := by
  have hsource : source < gs.length := (List.getElem?_eq_some_iff.mp hg).1
  have habove : ∀ above : Group, above.Misjoins { g with related := none } ↔ g.Clings :=
    fun above => misjoins_iff_clings (Or.inr rfl)
  have hbelow : ∀ below, ({ g with related := none } : Group).Misjoins below ↔ below.Clings :=
    fun below => misjoins_iff_clings (Or.inl rfl)
  have hfront : (∀ above ∈ ((gs.eraseIdx source).take target).getLast?, ¬g.Clings) ↔
      ¬(0 < target ∧ g.Clings) := by
    have hnil : (gs.eraseIdx source).take target = [] ↔ target = 0 := by
      rw [List.take_eq_nil_iff, ← List.length_eq_zero_iff, List.length_eraseIdx_of_lt hsource]
      omega
    by_cases hzero : target = 0
    · simp [hzero]
    · obtain ⟨above, habove⟩ := Option.ne_none_iff_exists'.mp
        (mt List.getLast?_eq_none_iff.mp (mt hnil.mp hzero))
      simp [habove, Nat.pos_of_ne_zero hzero]
  have hback : (∀ below ∈ ((gs.eraseIdx source).drop target).head?, ¬below.Clings) ↔
      ¬∃ next ∈ (gs.eraseIdx source)[target]?, next.Clings := by
    rw [List.head?_drop]
    push Not
    rfl
  have hacross : (∀ above ∈ (gs.take source).getLast?, ∀ below ∈ (gs.drop (source + 1)).head?,
      ¬above.Misjoins below) ↔ ¬MisjoinAcross (gs.take source) (gs.drop (source + 1)) := by
    rw [MisjoinAcross]
    push Not
    rfl
  rw [isChain_insertIdx_eraseIdx_iff _ h hsource htarget hne, hacross]
  simp only [habove, hbelow, hfront, hback, not_or]

/-- A group that inherits a blank line keeps its content and its place. -/
theorem exists_of_mem_inheritBlank {removed : Group} (hg : g ∈ removed.inheritBlank gs) :
    ∃ g₀ ∈ gs, g₀.kind = g.kind ∧ g₀.related = g.related := by
  cases gs with
  | nil => cases hg
  | cons first rest =>
      rw [inheritBlank] at hg
      split at hg
      · rcases List.mem_cons.mp hg with rfl | hg
        · exact ⟨first, List.mem_cons_self, rfl, rfl⟩
        · exact ⟨g, List.mem_cons_of_mem first hg, rfl, rfl⟩
      · exact ⟨g, hg, rfl, rfl⟩

end Group

/-! ## Edits -/

namespace KeywordEdit

/-- The edit puts a group somewhere or takes one from its place. -/
def Regroups (l : KeywordList) : KeywordEdit → Prop
  | insertGroup _ _ => True
  | e => e.Displaces l

theorem Regroups.keepsWords {l : KeywordList} {e : KeywordEdit} (h : e.Regroups l) :
    e.KeepsWords := by
  cases e with
  | setGlobalFilter words => exact h.elim
  | _ => trivial

/-- The place of a group that is put somewhere. -/
def landing? (l : KeywordList) : KeywordEdit → Option Nat
  | insertGroup index _ => some (min index l.groups.length)
  | moveGroup source target => if source = target then none else some target
  | _ => none

/-- The edit makes two groups neighbours that misjoin. -/
def Misjoins (l : KeywordList) : KeywordEdit → Prop
  | insertGroup index _ => ∃ next ∈ l.groups[index]?, next.Clings
  | removeGroup index | removeAlias index _ =>
    ∃ removed ∈ l.groups[index]?, Group.MisjoinAcross (l.groups.take index)
      (removed.inheritBlank (l.groups.drop (index + 1)))
  | moveGroup source target =>
    source ≠ target ∧ ∃ g ∈ l.groups[source]?,
      Group.MisjoinAcross (l.groups.take source) (l.groups.drop (source + 1)) ∨
        0 < target ∧ g.Clings ∨ ∃ next ∈ (l.groups.eraseIdx source)[target]?, next.Clings
  | _ => False

variable {l : KeywordList} {e : KeywordEdit} {index : Nat} {g : Group}

theorem Recasts.not_regroups {kind : GroupKind} (h : e.Recasts index g.kind kind)
    (hg : l.groups[index]? = some g) : ¬e.Regroups l := by
  cases e with
  | insertGroup _ _ => cases h
  | _ => exact h.not_displaces hg

theorem Removes.landing?_eq_none {kind : GroupKind} (h : e.Removes index kind) :
    e.landing? l = none := by
  cases h <;> rfl

theorem Removes.misjoins_iff (h : e.Removes index g.kind) (hg : l.groups[index]? = some g) :
    e.Misjoins l ↔ Group.MisjoinAcross (l.groups.take index)
      (g.inheritBlank (l.groups.drop (index + 1))) := by
  have hgroup : (removeGroup index).Misjoins l ↔ Group.MisjoinAcross (l.groups.take index)
      (g.inheritBlank (l.groups.drop (index + 1))) := by
    simp [Misjoins, hg]
  generalize g.kind = kind at h
  cases h with
  | group => exact hgroup
  | onlyAlias => exact hgroup

end KeywordEdit

namespace KeywordList

variable {l l' : KeywordList}

/-- Groups that an edit made of those of a list, before they are numbered
anew. -/
structure Regrouped (l : KeywordList) (e : KeywordEdit) (gs : List Group) : Prop where
  isChain_iff : (gs.IsChain fun above below => ¬above.Misjoins below) ↔ ¬e.Misjoins l
  landed : ∀ i ∈ e.landing? l, ∃ g, gs[i]? = some g ∧ g.related = none
  kept : ∀ g ∈ gs, ∀ r ∈ g.related, ∃ g₀ ∈ l.groups, g₀.kind = g.kind ∧ g₀.related = some r

theorem regrouped_inserted (h : l.groups.IsChain fun above below => ¬above.Misjoins below)
    (index : Nat) (kind : GroupKind) :
    l.Regrouped (.insertGroup index kind)
      (l.groups.insertIdx (min index l.groups.length) (.ofKind kind)) := by
  refine ⟨Group.isChain_inserted_iff h kind, ?_, ?_⟩
  · intro i hi
    obtain rfl := Option.some.inj hi
    refine ⟨.ofKind kind, ?_, rfl⟩
    rw [List.getElem?_insertIdx_self, if_pos (Nat.min_le_right ..)]
  · intro g hg r hr
    rcases List.eq_or_mem_of_mem_insertIdx hg with rfl | hg
    · cases hr
    · exact ⟨g, hg, rfl, hr⟩

theorem regrouped_removed (h : l.groups.IsChain fun above below => ¬above.Misjoins below)
    {e : KeywordEdit} {index : Nat} {removed : Group} (hremoved : l.groups[index]? = some removed)
    (he : e.Removes index removed.kind) :
    l.Regrouped e (l.groups.take index ++ removed.inheritBlank (l.groups.drop (index + 1))) := by
  refine ⟨?_, ?_, ?_⟩
  · rw [Group.isChain_removed_iff_misjoinAcross h, he.misjoins_iff hremoved]
  · intro i hi
    rw [he.landing?_eq_none] at hi
    cases hi
  · intro g hg r hr
    rcases List.mem_append.mp hg with hg | hg
    · exact ⟨g, List.mem_of_mem_take hg, rfl, hr⟩
    · obtain ⟨g₀, hg₀, hkind, hrelated⟩ := Group.exists_of_mem_inheritBlank hg
      exact ⟨g₀, List.mem_of_mem_drop hg₀, hkind, hrelated.trans hr⟩

theorem regrouped_moved (h : l.groups.IsChain fun above below => ¬above.Misjoins below)
    {source target : Nat} {g : Group} (hg : l.groups[source]? = some g)
    (htarget : target < l.groups.length) (hne : source ≠ target) :
    l.Regrouped (.moveGroup source target)
      ((l.groups.eraseIdx source).insertIdx target { g with related := none }) := by
  refine ⟨?_, ?_, ?_⟩
  · rw [Group.isChain_moved_iff_misjoins h hg htarget hne]
    simp [KeywordEdit.Misjoins, hg, hne]
  · intro i hi
    obtain rfl : target = i := by simpa [KeywordEdit.landing?, hne] using hi
    refine ⟨{ g with related := none }, ?_, rfl⟩
    have hsource : source < l.groups.length := (List.getElem?_eq_some_iff.mp hg).1
    rw [List.getElem?_insertIdx_self, if_pos]
    rw [List.length_eraseIdx_of_lt hsource]
    omega
  · intro g' hg' r hr
    rcases List.eq_or_mem_of_mem_insertIdx hg' with rfl | hg'
    · cases hr
    · exact ⟨g', List.mem_of_mem_eraseIdx hg', rfl, hr⟩

/-- An edit that puts or takes a group gives groups that are numbered anew,
unless it moves a group to where it is. -/
theorem regrouped_run? (h : l.groups.IsChain fun above below => ¬above.Misjoins below)
    {e : KeywordEdit} (he : e.Regroups l) (hl : e.run? l = some l') :
    (∃ gs, l'.groups = Group.renumber gs ∧ l.Regrouped e gs) ∨
      l' = l ∧ ¬e.Misjoins l ∧ e.landing? l = none := by
  cases edited_of_run? hl with
  | inserted index kind _ => exact Or.inl ⟨_, rfl, regrouped_inserted h index kind⟩
  | removed hg hremoves => exact Or.inl ⟨_, rfl, regrouped_removed h hg hremoves⟩
  | moved hg htarget hne => exact Or.inl ⟨_, rfl, regrouped_moved h hg htarget hne⟩
  | stayed _ => exact Or.inr ⟨rfl, fun hmisjoins => hmisjoins.1 rfl, if_pos rfl⟩
  | reworded words => exact he.elim
  | recast hg hrecasts => exact (hrecasts.not_regroups hg he).elim

/-! ## Places that are read back -/

theorem map_place?_unplaced (l : KeywordList) :
    l.unplaced.groups.map Group.place? = l.groups.map Group.place? := by
  rw [unplaced, List.map_map]
  rfl

/-- A list with the lines of a canonical list is read back as that list. -/
theorem Writable.unplaced_ofText_eq (h : l.Writable) {k : KeywordList} (hk : k.Canonical)
    (hwords : k.globalFilter = l.globalFilter) (hinside : k.inside = l.inside) (t : Text) :
    (ofText (l.toText (some t))).unplaced = k := by
  rw [unplaced_ofText_toText h.words (fun line hline => (h.isInside_of_mem_inside line hline).1) t,
    ← hwords, ← hinside, Assembly.finish_read_inside hk]

theorem isChain_not_misjoins_groups (h : l.unplaced.Canonical) :
    l.groups.IsChain fun above below => ¬above.Misjoins below := by
  obtain ⟨-, runs, hruns, hgroups, -⟩ := h
  have hchain := Group.isChain_not_misjoins_numberRuns hruns.isRun hruns.startsRun 0
  rw [← hgroups] at hchain
  exact (List.isChain_map Group.unplaced).mp hchain

/-- The places of groups that were numbered anew are read back exactly when no
neighbours misjoin. -/
theorem Writable.map_place?_ofText_toText (h : l.Writable) (hs : l.Spaced) {gs : List Group}
    (hgroups : l.groups = Group.renumber gs) (t : Text) :
    (ofText (l.toText (some t))).groups.map Group.place? = l.groups.map Group.place? ↔
      gs.IsChain fun above below => ¬above.Misjoins below := by
  have hseparate : l.Separate ↔ gs.IsChain fun above below => ¬above.Fuses below := by
    rw [Separate, hgroups, Group.isChain_renumber_iff]
  by_cases hnone : l.groups = []
  · obtain rfl : gs = [] := by
      rw [← List.length_eq_zero_iff, ← Group.length_renumber, ← hgroups, hnone]
      rfl
    have hkinds := (h.ofText_toText t).2.mpr (hseparate.mpr List.isChain_nil)
    have hread : (ofText (l.toText (some t))).groups = [] := by simpa [hnone] using hkinds
    rw [hread, hnone]
    exact iff_of_true rfl List.isChain_nil
  · obtain ⟨k, hk, hwords, hinside, hplaces⟩ :=
      exists_canonical_inside h hs fun hnil => absurd hnil hnone
    rw [← map_place?_unplaced, h.unplaced_ofText_eq hk hwords hinside]
    rcases hplaces with ⟨hplaces, hsep⟩ | ⟨hless, hsep⟩
    · rw [hplaces, hgroups, Group.joints_touches_renumber, Group.map_place?_renumber,
        Group.placesFrom_inj, Group.isChain_not_misjoins_iff]
      exact (and_iff_right (hseparate.mp hsep)).symm
    · refine iff_of_false (fun hsame => ?_) fun hchain => ?_
      · have hlength := congrArg List.length hsame
        rw [List.length_map, List.length_map] at hlength
        omega
      · exact hsep (hseparate.mpr (Group.isChain_not_misjoins_iff.mp hchain).1)

/-- When a group is put somewhere or taken from its place, the places in runs
are read back exactly when no groups become neighbours that misjoin.  In the
edited list the group that was put somewhere belongs to no run, and the others
belong to no run that they were not in. -/
theorem map_place?_ofText_toText_iff {t : Text} {e : KeywordEdit} {l : KeywordList}
    (hwritable : ∀ g ∈ (ofText t).groups, g.kind.isWritable = true)
    (he : e.Regroups (ofText t)) (hl : e.run? (ofText t) = some l) :
    ((ofText (l.toText (some t))).groups.map Group.place? = l.groups.map Group.place? ↔
        ¬e.Misjoins (ofText t)) ∧
      (∀ i ∈ e.landing? (ofText t), ∃ g, l.groups[i]? = some g ∧ g.related = none) ∧
      ∀ g ∈ l.groups, ∀ r ∈ g.related, ∃ g₀ ∈ (ofText t).groups, g₀.kind = g.kind ∧
        ∃ r₀ ∈ g₀.related, r₀.cluster = r.cluster := by
  have hnames : ∀ g ∈ (ofText t).groups, ∀ n keywords, g.kind = .named n keywords →
      IsGroupName n := by
    intro g hg n keywords hkind
    have hreadable := GroupKind.readable_of_isWritable (hwritable g hg)
    rw [hkind] at hreadable
    exact (isGroupName_of_bracketed hreadable.1.ofContent_eq).1
  have hcanonical := canonical_ofText_of_isGroupName hnames
  obtain ⟨hold, hspaced⟩ := writable_spaced_of_unplaced hcanonical
  rcases regrouped_run? (isChain_not_misjoins_groups hcanonical) he hl with
    ⟨gs, hgroups, hregrouped⟩ | ⟨rfl, hnot, hlanding⟩
  · have hnew := writable_run? hold he.keepsWords hl
    have hspacing := spaced_run? hold hspaced he.keepsWords hl
    refine ⟨?_, fun i hi => ?_, fun g hg r hr => ?_⟩
    · rw [hnew.map_place?_ofText_toText hspacing hgroups, hregrouped.isChain_iff]
    · obtain ⟨g₀, hg₀, hnone⟩ := hregrouped.landed i hi
      obtain ⟨g, hg⟩ : ∃ g, l.groups[i]? = some g := by
        have hi := (List.getElem?_eq_some_iff.mp hg₀).1
        rw [← Group.length_renumber, ← hgroups] at hi
        exact ⟨_, List.getElem?_eq_getElem hi⟩
      refine ⟨g, hg, Option.eq_none_iff_forall_not_mem.mpr fun r hr => ?_⟩
      rw [hgroups] at hg
      obtain ⟨g₁, hg₁, -, hkept⟩ := Group.exists_of_getElem?_renumber hg
      obtain rfl : g₀ = g₁ := Option.some.inj (hg₀.symm.trans hg₁)
      obtain ⟨r₀, hr₀, -⟩ := hkept r hr
      rw [hnone] at hr₀
      cases hr₀
    · obtain ⟨i, hi⟩ := List.mem_iff_getElem?.mp hg
      rw [hgroups] at hi
      obtain ⟨g₁, hg₁, hkind₁, hkept⟩ := Group.exists_of_getElem?_renumber hi
      obtain ⟨r₀, hr₀, hcluster⟩ := hkept r hr
      obtain ⟨g₀, hg₀, hkind₀, hrelated⟩ :=
        hregrouped.kept g₁ (List.mem_of_getElem? hg₁) r₀ hr₀
      exact ⟨g₀, hg₀, hkind₀.trans hkind₁, r₀, hrelated, hcluster⟩
  · have hread := hold.unplaced_ofText_eq hcanonical rfl (inside_unplaced _) t
    refine ⟨iff_of_true ?_ hnot, fun i hi => ?_, fun g hg r hr => ⟨g, hg, rfl, r, hr, rfl⟩⟩
    · rw [← map_place?_unplaced, hread, map_place?_unplaced]
    · rw [hlanding] at hi
      cases hi

/-- The first group of a run is moved out of it: the two others are still one
run, and it belongs to none. -/
theorem map_place?_ofText_toText_iff_moved :
    let t : Text := "[GLOBAL_FILTER]\n\n[WORD_GROUPS]\n\nA\nx => y\n[N]\nB\n\n".toList
    ∃ l, (KeywordEdit.moveGroup 0 2).run? (ofText t) = some l ∧
      (ofText (l.toText (some t))).groups.map Group.place? = [some (1, 2), some (2, 2), none] ∧
      ∃ g, l.groups[2]? = some g ∧ g.related = none := by
  intro t
  have hwritable : ∀ g ∈ (ofText t).groups, g.kind.isWritable = true := by decide
  obtain ⟨l, hl, hplaces⟩ : ∃ l, (KeywordEdit.moveGroup 0 2).run? (ofText t) = some l ∧
      l.groups.map Group.place? = [some (1, 2), some (2, 2), none] :=
    ⟨_, rfl, by decide⟩
  have hregroups : (KeywordEdit.moveGroup 0 2).Regroups (ofText t) := trivial
  have hmisjoins : ¬(KeywordEdit.moveGroup 0 2).Misjoins (ofText t) := by
    rintro ⟨-, g, hg, hmisjoins⟩
    obtain rfl := Option.some.inj hg
    exact absurd hmisjoins (by decide)
  obtain ⟨hread, hlanded, -⟩ := map_place?_ofText_toText_iff hwritable hregroups hl
  exact ⟨l, hl, (hread.mpr hmisjoins).trans hplaces, hlanded 2 rfl⟩

/-- A group with a comment that stood first clings to the group above its new
place. -/
theorem related_after_move :
    let t : Text := "[GLOBAL_FILTER]\n\n[WORD_GROUPS]\n\n# about A\nA\n\nB\n\n".toList
    (∀ g ∈ (ofText t).groups, g.kind.isWritable = true) ∧
      ∃ l, (KeywordEdit.moveGroup 0 1).run? (ofText t) = some l ∧
        l.groups.map Group.place? = [none, none] ∧
        (ofText (l.toText (some t))).groups.map Group.place? = [some (1, 2), some (2, 2)] := by
  intro t
  exact ⟨by decide, _, rfl, by decide, by decide⟩

end KeywordList

end Marginalia.Keywords
