import Marginalia.Proofs.Keywords.Neighbours

/-!
# Places in runs

The place of a group in its run is its number there and the number of groups of
the run.  Which neighbours are in one run tells the places of all groups, and
the places tell which neighbours are in one run.  So two lists have the same
places when their joints are the same, however the runs were numbered: while a
text was read, or anew after an edit.
-/

namespace Marginalia.Keywords

namespace Group

/-- The number of the group in its run, with the number of groups there. -/
def place? (g : Group) : Option (Nat × Nat) :=
  g.related.map fun r => (r.index, r.total)

/-- For each group whether the next one goes on with its run. -/
def joints (joined : Group → Group → Bool) : List Group → List Bool
  | [] => []
  | g :: gs => gs.head?.any (joined g) :: joints joined gs

/-- The places of groups with given joints, when `before` groups of the first
run stand above. -/
def placesFrom (before : Nat) : List Bool → List (Option (Nat × Nat))
  | [] => []
  | joined :: rest =>
    let total := before + 1 + if joined then (rest.takeWhile id).length + 1 else 0
    (if total > 1 then some (before + 1, total) else none) ::
      placesFrom (if joined then before + 1 else 0) rest

theorem map_placesFrom (before : Nat) (bs : List Bool) :
    (placesFrom before bs).map (fun p => p.any fun p => decide (p.1 < p.2)) = bs := by
  induction bs generalizing before with
  | nil => rfl
  | cons joined rest ih =>
      rw [placesFrom, List.map_cons, ih]
      congr 1
      cases joined with
      | false => by_cases hbefore : 0 < before <;> simp [hbefore]
      | true =>
          have htotal : 1 < before + 1 + ((rest.takeWhile id).length + 1) := by omega
          simp [htotal]

theorem placesFrom_inj {before : Nat} {bs bs' : List Bool} :
    placesFrom before bs = placesFrom before bs' ↔ bs = bs' := by
  refine ⟨fun h => ?_, fun h => by rw [h]⟩
  rw [← map_placesFrom before bs, h, map_placesFrom]

theorem length_joints (joined : Group → Group → Bool) (gs : List Group) :
    (joints joined gs).length = gs.length := by
  induction gs with
  | nil => rfl
  | cons g gs ih => rw [joints, List.length_cons, List.length_cons, ih]

theorem length_placesFrom (before : Nat) (bs : List Bool) :
    (placesFrom before bs).length = bs.length := by
  rw [← List.length_map, map_placesFrom]

/-- Two lists of joints of the same groups are the same when all neighbours are
joined alike. -/
theorem joints_eq_iff {joined joined' : Group → Group → Bool} {gs : List Group} :
    joints joined gs = joints joined' gs ↔
      gs.IsChain fun above below => joined above below = joined' above below := by
  induction gs with
  | nil => simp [joints]
  | cons g gs ih =>
      rw [joints, joints, List.cons.injEq, ih]
      cases gs with
      | nil => simp
      | cons next gs => simp [List.isChain_cons_cons]

/-! ## Numbers given anew -/

/-- Whether two groups have a place in the same run. -/
def sameRun (above below : Group) : Bool :=
  decide (above.SameRun below)

theorem sameRun_eq_inCluster {above below : Group} {r : Related} (hr : above.related = some r) :
    above.sameRun below = below.inCluster r.cluster := by
  simp [sameRun, SameRun, hr]

/-- The groups of a run that follow one of its groups are those that the joints
go on to. -/
theorem length_takeWhile_inCluster {g : Group} {r : Related} (hr : g.related = some r)
    (gs : List Group) :
    (gs.takeWhile (inCluster r.cluster)).length =
      if gs.head?.any (sameRun g) then ((joints sameRun gs).takeWhile id).length + 1 else 0 := by
  induction gs generalizing g r with
  | nil => rfl
  | cons next gs ih =>
      have hsame : g.sameRun next = next.inCluster r.cluster := sameRun_eq_inCluster hr
      by_cases hin : next.inCluster r.cluster = true
      · obtain ⟨r', hr', hcluster⟩ : ∃ r', next.related = some r' ∧ r'.cluster = r.cluster := by
          simpa [inCluster] using hin
        have hrest := ih hr'
        rw [hcluster] at hrest
        rw [List.takeWhile_cons_of_pos hin, List.length_cons, hrest, joints]
        simp only [List.head?_cons, Option.any_some, hsame, hin, if_true]
        cases gs.head?.any next.sameRun <;> simp
      · rw [List.takeWhile_cons_of_neg hin]
        simp [hsame, hin]

/-- The places after the runs were numbered anew; `n` groups of the first run
stand above. -/
theorem map_place?_renumberFrom {previous : Option Nat} {before n : Nat} {gs : List Group}
    (hn : ∀ g ∈ gs.head?, (if previous.any (inCluster · g) then before else 0) = n) :
    (renumberFrom previous before gs).map place? = placesFrom n (joints sameRun gs) := by
  induction gs generalizing previous before n with
  | nil => rfl
  | cons g gs ih =>
      have hfirst := hn g rfl
      rw [renumberFrom, joints, placesFrom]
      cases hrelated : g.related with
      | none =>
          have hnone : ∀ cluster, g.inCluster cluster = false := by
            intro cluster
            simp [inCluster, hrelated]
          have hbefore : n = 0 := by
            rw [← hfirst]
            cases previous <;> simp [hnone]
          have hjoint : gs.head?.any (sameRun g) = false := by
            cases gs.head? <;> simp [sameRun, SameRun, hrelated]
          have hrest : (renumberFrom none 0 gs).map place? = placesFrom 0 (joints sameRun gs) :=
            ih (by simp)
          simp [hbefore, hjoint, hrest, place?, hrelated]
      | some r =>
          have hbefore : (if previous = some r.cluster then before else 0) = n := by
            rw [← hfirst]
            cases previous with
            | none => simp
            | some cluster =>
                have hin : g.inCluster cluster = true ↔ cluster = r.cluster := by
                  rw [inCluster, hrelated, Option.map_some, beq_iff_eq, Option.some.injEq, eq_comm]
                simp [hin]
          have hrest : (renumberFrom (some r.cluster) (n + 1) gs).map place? =
              placesFrom (if gs.head?.any (sameRun g) then n + 1 else 0) (joints sameRun gs) := by
            apply ih
            intro next hnext
            rw [Option.mem_def.mp hnext]
            simp [sameRun_eq_inCluster hrelated]
          dsimp only
          rw [hbefore, List.map_cons, hrest, length_takeWhile_inCluster hrelated, place?,
            apply_ite (Option.map fun r : Related => (r.index, r.total))]
          rfl

theorem map_place?_renumber (gs : List Group) :
    (renumber gs).map place? = placesFrom 0 (joints sameRun gs) :=
  map_place?_renumberFrom (by simp)

/-! ## Numbers given while reading -/

def jointsOfRuns (runs : List (List Group)) : List Bool :=
  runs.flatMap fun run => List.replicate (run.length - 1) true ++ [false]

theorem placesFrom_replicate (before n : Nat) (bs : List Bool) :
    placesFrom before (List.replicate n true ++ false :: bs) =
      (List.range (n + 1)).map (fun i =>
        if before + n + 1 > 1 then some (before + i + 1, before + n + 1) else none) ++
          placesFrom 0 bs := by
  induction n generalizing before with
  | zero => simp [placesFrom]
  | succ n ih =>
      have htake : ((List.replicate n true ++ false :: bs).takeWhile id).length = n := by
        rw [List.takeWhile_append_of_pos (by simp)]
        simp
      rw [List.replicate_succ, List.cons_append, placesFrom, htake, if_pos rfl, ih,
        List.range_succ_eq_map (n := n + 1)]
      simp [Function.comp_def, Nat.add_assoc, Nat.add_comm, Nat.add_left_comm]

theorem map_place?_numberRun (cluster : Nat) {run : List Group}
    (h : ∀ g ∈ run, g.related = none) :
    (Assembly.numberRun cluster run).map place? =
      (List.range run.length).map fun i =>
        if run.length > 1 then some (i + 1, run.length) else none := by
  unfold Assembly.numberRun
  apply List.ext_getElem?
  intro i
  split
  · simp only [List.getElem?_map, List.getElem?_mapIdx, Option.map_map]
    by_cases hi : i < run.length <;> simp [hi, place?]
  · by_cases hi : i < run.length
    · simp [hi, place?, h]
    · simp [hi]

theorem map_place?_numberRuns (cluster : Nat) {runs : List (List Group)}
    (h : ∀ run ∈ runs, run ≠ [] ∧ ∀ g ∈ run, g.related = none) :
    (numberRuns cluster runs).map place? = placesFrom 0 (jointsOfRuns runs) := by
  induction runs generalizing cluster with
  | nil => rfl
  | cons run runs ih =>
      obtain ⟨hne, hfresh⟩ := h run (by simp)
      have hlength : run.length - 1 + 1 = run.length := by
        have hpos := List.length_pos_iff.mpr hne
        omega
      have hrest := ih (nextCluster cluster run) fun r hr => h r (by simp [hr])
      have hjoints : jointsOfRuns (run :: runs) =
          List.replicate (run.length - 1) true ++ false :: jointsOfRuns runs := by
        simp [jointsOfRuns]
      rw [numberRuns, List.map_append, hrest, map_place?_numberRun cluster hfresh, hjoints,
        placesFrom_replicate, hlength]
      simp [hlength]

end Group

end Marginalia.Keywords
