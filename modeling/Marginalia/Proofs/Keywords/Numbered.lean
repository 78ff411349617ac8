import Marginalia.Proofs.Keywords.Related

/-!
# Runs stay numbered

A block is what is left of a run among the groups: neighbours that carry its
number, as many as there are.  Edits cut runs into blocks and bring blocks
together again, and the places count within a block.  The places of all groups
are then those that their joints tell, which is so in a list that was read and
whenever runs were numbered anew; the other edits leave all places as they are.
-/

namespace Marginalia.Keywords

namespace Group

/-- Neighbours in a run, all that stand there: the groups above and below are
not in it. -/
structure IsBlock (cluster : Nat) (front block back : List Group) : Prop where
  ne_nil : block ≠ []
  mem : ∀ g ∈ block, g.inCluster cluster = true
  above : ∀ g ∈ front.getLast?, g.inCluster cluster = false
  below : ∀ g ∈ back.head?, g.inCluster cluster = false

/-- Every block has at least two groups, which are numbered from one and know
how many they are, so a group tells whether the next one is in its block. -/
structure RunsNumbered (gs : List Group) : Prop where
  block (cluster : Nat) (front block back : List Group) :
    gs = front ++ (block ++ back) → IsBlock cluster front block back →
      2 ≤ block.length ∧ ∀ (k : Nat) (g : Group), block[k]? = some g →
        g.related = some ⟨cluster, k + 1, block.length⟩
  continues_iff (i : Nat) (g : Group) (r : Related) :
    gs[i]? = some g → g.related = some r →
      (r.continues = true ↔ ∃ next, gs[i + 1]? = some next ∧ next.inCluster r.cluster = true)

/-- All groups have the places that the runs of their neighbours tell. -/
def Numbered (gs : List Group) : Prop :=
  gs.map place? = placesFrom 0 (joints sameRun gs)

variable {gs gs' : List Group}

/-! ## Joints and places of parts -/

theorem joints_append {joined : Group → Group → Bool} {xs ys : List Group}
    (h : ∀ above ∈ xs.getLast?, ∀ below ∈ ys.head?, joined above below = false) :
    joints joined (xs ++ ys) = joints joined xs ++ joints joined ys := by
  induction xs with
  | nil => rfl
  | cons x xs ih =>
      cases xs with
      | nil =>
          have hlast : ys.head?.any (joined x) = false := by
            cases hhead : ys.head? with
            | none => rfl
            | some y => exact h x rfl y hhead
          simp [joints, hlast]
      | cons next xs =>
          have hrest := ih fun above habove => h above (by simpa using habove)
          rw [List.cons_append, joints, hrest, joints]
          rfl

theorem joints_of_forall {joined : Group → Group → Bool} {xs : List Group} (hne : xs ≠ [])
    (h : ∀ above ∈ xs, ∀ below ∈ xs, joined above below = true) :
    joints joined xs = List.replicate (xs.length - 1) true ++ [false] := by
  induction xs with
  | nil => exact absurd rfl hne
  | cons x xs ih =>
      cases xs with
      | nil => rfl
      | cons next xs =>
          have hfirst : joined x next = true := h x (by simp) next (by simp)
          have hrest := ih (by simp) fun above habove below hbelow =>
            h above (List.mem_cons_of_mem x habove) below (List.mem_cons_of_mem x hbelow)
          rw [joints, hrest, List.head?_cons, Option.any_some, hfirst]
          simp [List.replicate_succ]

theorem getElem?_joints (joined : Group → Group → Bool) (i : Nat) :
    (joints joined gs)[i]? = gs[i]?.map fun g => gs[i + 1]?.any (joined g) := by
  induction gs generalizing i with
  | nil => rfl
  | cons g gs ih =>
      cases i with
      | zero => simp [joints, List.head?_eq_getElem?]
      | succ i => simpa [joints] using ih i

/-- Behind a joint that does not hold the places are counted anew. -/
theorem placesFrom_append (before : Nat) (xs ys : List Bool) :
    placesFrom before (xs ++ false :: ys) =
      placesFrom before (xs ++ [false]) ++ placesFrom 0 ys := by
  induction xs generalizing before with
  | nil => simp [placesFrom]
  | cons x xs ih =>
      have htake : ((xs ++ false :: ys).takeWhile id).length =
          ((xs ++ [false]).takeWhile id).length := by
        simp [List.takeWhile_append]
      rw [List.cons_append, placesFrom, ih, htake]
      rfl

theorem exists_joints_eq_concat (joined : Group → Group → Bool) (hne : gs ≠ []) :
    ∃ bs, joints joined gs = bs ++ [false] := by
  induction gs with
  | nil => exact absurd rfl hne
  | cons g gs ih =>
      cases gs with
      | nil => exact ⟨[], rfl⟩
      | cons next gs =>
          obtain ⟨bs, hbs⟩ := ih (by simp)
          exact ⟨_ :: bs, by rw [joints, hbs, List.cons_append]⟩

theorem placesFrom_joints_append (joined : Group → Group → Bool) (gs : List Group)
    (bs : List Bool) :
    placesFrom 0 (joints joined gs ++ bs) =
      placesFrom 0 (joints joined gs) ++ placesFrom 0 bs := by
  by_cases hne : gs = []
  · rw [hne]
    rfl
  · obtain ⟨front, hfront⟩ := exists_joints_eq_concat joined hne
    rw [hfront, List.append_assoc, List.singleton_append, placesFrom_append]

/-! ## Blocks of numbered groups -/

/-- Of two groups in one run both are in a given run or neither is. -/
theorem sameRun_eq_false_of_ne {above below : Group} (cluster : Nat)
    (h : above.inCluster cluster ≠ below.inCluster cluster) : above.sameRun below = false := by
  refine Bool.eq_false_iff.mpr fun hsame => h ?_
  obtain ⟨r, hr, r', hr', hcluster⟩ := sameRun_iff.mp (of_decide_eq_true hsame)
  simp [inCluster, Option.mem_def.mp hr, Option.mem_def.mp hr', hcluster]

theorem sameRun_of_inCluster {above below : Group} {cluster : Nat}
    (habove : above.inCluster cluster = true) (hbelow : below.inCluster cluster = true) :
    above.sameRun below = true := by
  obtain ⟨r, hr, rfl⟩ : ∃ r, above.related = some r ∧ r.cluster = cluster := by
    simpa [inCluster] using habove
  rw [sameRun_eq_inCluster hr, hbelow]

variable {cluster : Nat} {front block back : List Group}

/-- The joints around a block do not hold, and those within it do. -/
theorem IsBlock.joints_eq (h : IsBlock cluster front block back) :
    joints sameRun (front ++ (block ++ back)) =
      joints sameRun front ++
        (List.replicate (block.length - 1) true ++ false :: joints sameRun back) := by
  have hblock : joints sameRun block = List.replicate (block.length - 1) true ++ [false] :=
    joints_of_forall h.ne_nil fun above habove below hbelow =>
      sameRun_of_inCluster (h.mem above habove) (h.mem below hbelow)
  have habove : ∀ above ∈ front.getLast?, ∀ below ∈ (block ++ back).head?,
      above.sameRun below = false := by
    intro above habove below hbelow
    rw [List.head?_append_of_ne_nil _ h.ne_nil] at hbelow
    apply sameRun_eq_false_of_ne cluster
    rw [h.above above habove, h.mem below (List.mem_of_mem_head? hbelow)]
    exact Bool.false_ne_true
  have hbelow : ∀ above ∈ block.getLast?, ∀ below ∈ back.head?, above.sameRun below = false := by
    intro above habove below hbelow
    apply sameRun_eq_false_of_ne cluster
    rw [h.mem above (List.mem_of_getLast? habove), h.below below hbelow]
    exact Bool.false_ne_true.symm
  rw [joints_append habove, joints_append hbelow, hblock, List.append_assoc, List.singleton_append]

theorem Numbered.map_place?_block (h : Numbered (front ++ (block ++ back)))
    (hblock : IsBlock cluster front block back) :
    block.map place? = (List.range block.length).map fun i =>
      if block.length > 1 then some (i + 1, block.length) else none := by
  have hpos := List.length_pos_iff.mpr hblock.ne_nil
  have hlength : block.length - 1 + 1 = block.length := by omega
  rw [Numbered, hblock.joints_eq, placesFrom_joints_append, placesFrom_replicate, List.map_append,
    List.map_append] at h
  have hrest := List.append_inj_right h (by simp [length_placesFrom, length_joints])
  have hplaces := List.append_inj_left hrest (by simp [hlength])
  simpa [hlength] using hplaces

theorem Numbered.related_eq (h : Numbered (front ++ (block ++ back)))
    (hblock : IsBlock cluster front block back) {k : Nat} {g : Group} (hg : block[k]? = some g) :
    1 < block.length ∧ g.related = some ⟨cluster, k + 1, block.length⟩ := by
  obtain ⟨r, hr, rfl⟩ : ∃ r, g.related = some r ∧ r.cluster = cluster := by
    simpa [inCluster] using hblock.mem g (List.mem_of_getElem? hg)
  obtain ⟨hk, rfl⟩ := List.getElem?_eq_some_iff.mp hg
  obtain ⟨hlength, hindex, htotal⟩ :
      1 < block.length ∧ k + 1 = r.index ∧ block.length = r.total := by
    simpa [hk, place?, hr, eq_comm] using congrArg (·[k]?) (h.map_place?_block hblock)
  refine ⟨hlength, ?_⟩
  rw [hr, hindex, htotal]

/-- The place of a group tells whether the next one is in its run. -/
theorem Numbered.continues_iff (h : Numbered gs) {i : Nat} {g : Group} {r : Related}
    (hg : gs[i]? = some g) (hr : g.related = some r) :
    r.continues = true ↔ ∃ next, gs[i + 1]? = some next ∧ next.inCluster r.cluster = true := by
  have hjoints := map_placesFrom 0 (joints sameRun gs)
  rw [← h, List.map_map] at hjoints
  have hjoint : r.continues = gs[i + 1]?.any (sameRun g) := by
    simpa [getElem?_joints, hg, place?, hr, Related.continues] using congrArg (·[i]?) hjoints
  rw [hjoint, Option.any_eq_true]
  refine exists_congr fun next => and_congr_right fun _ => ?_
  rw [sameRun_eq_inCluster hr]

theorem Numbered.runsNumbered (h : Numbered gs) : RunsNumbered gs := by
  constructor
  · rintro cluster front block back rfl hblock
    obtain ⟨first, rest, rfl⟩ := List.exists_cons_of_ne_nil hblock.ne_nil
    exact ⟨(h.related_eq hblock (k := 0) rfl).1, fun k g hg => (h.related_eq hblock hg).2⟩
  · exact fun i g r hg hr => h.continues_iff hg hr

/-! ## Lists that were read -/

theorem numberRuns_filter_ne_nil (cluster : Nat) (runs : List (List Group)) :
    numberRuns cluster (runs.filter (· ≠ [])) = numberRuns cluster runs := by
  induction runs generalizing cluster with
  | nil => rfl
  | cons run runs ih =>
      by_cases hnil : run = []
      · rw [hnil]
        simpa [numberRuns, nextCluster, Assembly.numberRun] using ih cluster
      · rw [List.filter_cons_of_pos (by simpa using hnil), numberRuns, ih, numberRuns]

theorem joints_numberRun {run : List Group} (hne : run ≠ []) (cluster : Nat) :
    joints sameRun (Assembly.numberRun cluster run) =
      List.replicate (run.length - 1) true ++ [false] := by
  have hlength : (Assembly.numberRun cluster run).length = run.length := by
    have hkinds := Assembly.map_numberRun (f := Group.kind) (fun _ _ => rfl) cluster run
    simpa using congrArg List.length hkinds
  by_cases hmany : 1 < run.length
  · have hnumbered : Assembly.numberRun cluster run ≠ [] := by
      rw [← List.length_pos_iff, hlength]
      exact List.length_pos_iff.mpr hne
    rw [← hlength]
    exact joints_of_forall hnumbered fun above habove below hbelow =>
      decide_eq_true (sameRun_of_mem_numberRun hmany habove hbelow)
  · have hpos := List.length_pos_iff.mpr hne
    obtain ⟨g, rfl⟩ := List.length_eq_one_iff.mp (by omega : run.length = 1)
    rfl

theorem joints_numberRuns {runs : List (List Group)}
    (h : ∀ run ∈ runs, run ≠ [] ∧ IsParted run) (cluster : Nat) :
    joints sameRun (numberRuns cluster runs) = jointsOfRuns runs := by
  induction runs generalizing cluster with
  | nil => rfl
  | cons run runs ih =>
      obtain ⟨⟨hne, hparted⟩, hruns⟩ := List.forall_mem_cons.mp h
      have hapart : ∀ above ∈ (Assembly.numberRun cluster run).getLast?,
          ∀ below ∈ (numberRuns (nextCluster cluster run) runs).head?,
            above.sameRun below = false := fun above habove below hbelow =>
        decide_eq_false (hparted.not_sameRun_of_mem (fun run hrun => (hruns run hrun).2)
          (List.mem_of_getLast? habove) (List.mem_of_mem_head? hbelow))
      rw [numberRuns, joints_append hapart, joints_numberRun hne, ih hruns]
      rfl

theorem numbered_numberRuns {runs : List (List Group)} (h : ∀ run ∈ runs, IsParted run) :
    Numbered (numberRuns 0 runs) := by
  have hruns : ∀ run ∈ runs.filter (· ≠ []), run ≠ [] ∧ IsParted run := by
    intro run hrun
    obtain ⟨hmem, hne⟩ := List.mem_filter.mp hrun
    exact ⟨of_decide_eq_true hne, h run hmem⟩
  rw [← numberRuns_filter_ne_nil, Numbered, joints_numberRuns hruns]
  exact map_place?_numberRuns 0 fun run hrun => ⟨(hruns run hrun).1, (hruns run hrun).2.unnumbered⟩

/-! ## Lists that were edited -/

/-- The first two of some groups are in one run after the runs were numbered
anew if they were before: each of them then counts the other one, so neither
leaves the run. -/
theorem exists_renumberFrom_cons_cons (previous : Option Nat) (before : Nat) (g next : Group)
    (gs : List Group) :
    ∃ g₁ previous₁ before₁ g₂ rest,
      renumberFrom previous before (g :: next :: gs) =
          g₁ :: renumberFrom previous₁ before₁ (next :: gs) ∧
        renumberFrom previous₁ before₁ (next :: gs) = g₂ :: rest ∧
        g₁.sameRun g₂ = g.sameRun next := by
  rw [renumberFrom]
  cases hg : g.related with
  | none =>
      obtain ⟨g₂, previous₂, before₂, hsecond, -⟩ := exists_renumberFrom_cons none 0 next gs
      refine ⟨g, none, 0, g₂, _, rfl, hsecond, ?_⟩
      simp [sameRun, SameRun, hg]
  | some r =>
      dsimp only
      generalize (if previous = some r.cluster then before else 0) = n
      cases hnext : next.related with
      | none =>
          refine ⟨_, _, _, next, _, rfl, by rw [renumberFrom, hnext], ?_⟩
          simp [sameRun, not_sameRun_of_related_eq_none (Or.inr hnext)]
      | some r' =>
          refine ⟨_, _, _, _, _, rfl, by rw [renumberFrom, hnext], ?_⟩
          by_cases hcluster : r'.cluster = r.cluster
          · generalize hrest : (gs.takeWhile (inCluster r.cluster)).length = m
            have hfirst : 1 < n + 1 + (m + 1) := by omega
            have hsecond : 1 < n + 1 + 1 + m := by omega
            simp [sameRun, SameRun, inCluster, hg, hnext, hcluster, hrest, hfirst, hsecond]
          · rw [sameRun_eq_inCluster hg, inCluster, hnext]
            refine (decide_eq_false fun hsame => hcluster ?_).trans (by simp [hcluster])
            obtain ⟨r₁, hr₁, r₂, hr₂, hsame⟩ := sameRun_iff.mp hsame
            obtain rfl := Option.some.inj (Option.ite_none_right_eq_some.mp hr₁).2
            obtain rfl := Option.some.inj (Option.ite_none_right_eq_some.mp hr₂).2
            exact hsame

/-- Groups are in one run after the runs were numbered anew if they were
before. -/
theorem joints_renumber (gs : List Group) : joints sameRun (renumber gs) = joints sameRun gs := by
  have hfrom : ∀ (gs : List Group) (previous : Option Nat) (before : Nat),
      joints sameRun (renumberFrom previous before gs) = joints sameRun gs := by
    intro gs
    induction gs with
    | nil => exact fun _ _ => rfl
    | cons g gs ih =>
        intro previous before
        cases gs with
        | nil =>
            obtain ⟨g₁, previous₁, before₁, hfirst, -⟩ :=
              exists_renumberFrom_cons previous before g []
            rw [hfirst]
            rfl
        | cons next gs =>
            obtain ⟨g₁, previous₁, before₁, g₂, rest, hfirst, hsecond, hsame⟩ :=
              exists_renumberFrom_cons_cons previous before g next gs
            rw [hfirst, joints, joints, ih, hsecond, List.head?_cons, List.head?_cons,
              Option.any_some, Option.any_some, hsame]
  exact hfrom gs none 0

theorem numbered_renumber (gs : List Group) : Numbered (renumber gs) := by
  rw [Numbered, joints_renumber, map_place?_renumber]

theorem joints_sameRun_congr (h : gs'.map related = gs.map related) :
    joints sameRun gs' = joints sameRun gs := by
  induction gs generalizing gs' with
  | nil =>
      obtain rfl : gs' = [] := List.map_eq_nil_iff.mp h
      rfl
  | cons g gs ih =>
      obtain ⟨g', rest, rfl, hg, hrest⟩ := List.map_eq_cons_iff.mp h
      have hjoint : rest.head?.any (sameRun g') = gs.head?.any (sameRun g) := by
        have hhead : rest.head?.map related = gs.head?.map related := by
          rw [← List.head?_map, hrest, List.head?_map]
        have hany : ∀ (g : Group) (next : Option Group), next.any (sameRun g) =
            (next.map related).any fun below => g.related.any fun r =>
              below.map (·.cluster) == some r.cluster := by
          intro g next
          cases next with
          | none => rfl
          | some below =>
              rw [Option.any_some, Bool.eq_iff_iff, sameRun, decide_eq_true_iff]
              rfl
        rw [hany, hany, hhead, hg]
      rw [joints, joints, ih hrest, hjoint]

/-- What groups are made of has no part in their places. -/
theorem Numbered.congr (hgs : Numbered gs) (h : gs'.map related = gs.map related) :
    Numbered gs' := by
  have hplaces : gs'.map place? = gs.map place? := by
    have hmapped := congrArg (List.map (Option.map fun r : Related => (r.index, r.total))) h
    rwa [List.map_map, List.map_map] at hmapped
  rw [Numbered, hplaces, joints_sameRun_congr h]
  exact hgs

end Group

namespace KeywordList

open Marginalia.Keywords.Group (Numbered RunsNumbered renumber numbered_renumber
  numbered_numberRuns)

variable {l l' : KeywordList}

theorem numbered_ofText (t : Text) : Numbered (ofText t).groups := by
  obtain ⟨runs, hgroups, hparted⟩ := exists_groups_ofText_eq t
  rw [hgroups]
  exact numbered_numberRuns hparted

/-- An edit numbers all runs anew or leaves all groups in their places. -/
def Renumbers (gs gs' : List Group) : Prop :=
  (∃ others, gs' = renumber others) ∨ gs'.map Group.related = gs.map Group.related

theorem renumbers_run? {e : KeywordEdit} (hl : e.run? l = some l') :
    Renumbers l.groups l'.groups := by
  cases edited_of_run? hl with
  | reworded words => exact Or.inr rfl
  | inserted index kind _ => exact Or.inl ⟨_, rfl⟩
  | removed _ _ => exact Or.inl ⟨_, rfl⟩
  | moved _ _ _ => exact Or.inl ⟨_, rfl⟩
  | stayed _ => exact Or.inr rfl
  | @recast _ _ g kind hg _ => exact Or.inr (map_set_kind (fun _ _ => rfl) hg kind)

/-- One edit, refused or not. -/
def editedBy (l : KeywordList) (e : KeywordEdit) : KeywordList :=
  (e.run? l).getD l

theorem numbered_editedBy (h : Numbered l.groups) (e : KeywordEdit) :
    Numbered (l.editedBy e).groups := by
  unfold editedBy
  cases hl : e.run? l with
  | none => exact h
  | some l' =>
      rcases renumbers_run? hl with ⟨others, hothers⟩ | hsame
      · rw [Option.getD_some, hothers]
        exact numbered_renumber others
      · exact h.congr hsame

theorem numbered_foldl_editedBy (h : Numbered l.groups) (es : List KeywordEdit) :
    Numbered (es.foldl editedBy l).groups := by
  induction es generalizing l with
  | nil => exact h
  | cons e es ih => exact ih (numbered_editedBy h e)

/-- Whichever edits were tried on a list that was read, its runs are
numbered. -/
theorem runsNumbered_foldl_editedBy (t : Text) (es : List KeywordEdit) :
    RunsNumbered (es.foldl editedBy (ofText t)).groups :=
  (numbered_foldl_editedBy (numbered_ofText t) es).runsNumbered

/-- A new group cuts a run into two blocks. -/
example :
    (([.insertGroup 2 (.plain [['c']])] : List KeywordEdit).foldl editedBy
        (ofText "[WORD_GROUPS]\nx => y\nA\n[N]\ny => z\n".toList)).groups.map Group.related =
      [some ⟨0, 1, 2⟩, some ⟨0, 2, 2⟩, none, some ⟨0, 1, 2⟩, some ⟨0, 2, 2⟩] := by
  decide

end KeywordList

end Marginalia.Keywords
