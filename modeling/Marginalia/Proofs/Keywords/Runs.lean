import Marginalia.Keywords.Writer
import Marginalia.Proofs.Keywords.Step
import Mathlib.Data.List.Chain

/-!
# Runs of groups

The groups of a list are runs put one behind the other and numbered.
`Canonical` says which runs a text can hold: every line is read back, each group
opens below the one above it, and the comments above the first group of a run
set it apart.  The lines of numbered groups can be written run by run, without
the numbers.
-/

namespace Marginalia.Keywords

/-- A comment that is read back, or a blank line between comments. -/
def IsNote (line : Text) : Prop :=
  line = [] ∨ ReadsAs line (.comment line)

/-- A line that can stand below the sentinel of the groups without ending the
section. -/
def IsInside (line : Text) : Prop :=
  Text.IsLine line ∧ ∀ opened, LineClass.ofContent line ≠ .sentinel opened

theorem isInside_nil : IsInside [] :=
  ⟨by simp [Text.IsLine], fun opened h => by
    have hblank : LineClass.ofContent [] = .blank := by decide
    rw [hblank] at h
    cases h⟩

theorem isInside_of_readsAs {line : Text} {c : LineClass} (h : ReadsAs line c)
    (hc : ∀ opened, c ≠ .sentinel opened) : IsInside line :=
  ⟨h.isLine, fun opened hsentinel => hc opened (h.ofContent_eq.symm.trans hsentinel)⟩

theorem isInside_of_isNote {line : Text} (h : IsNote line) : IsInside line := by
  rcases h with rfl | h
  · exact isInside_nil
  · exact isInside_of_readsAs h (by simp)

namespace GroupKind

/-- Every line of the group is read back. -/
def Readable : GroupKind → Prop
  | plain keywords => keywords ≠ [] ∧ ∀ k ∈ keywords, ReadsAs k (.keyword k)
  | named name keywords =>
    ReadsAs ('[' :: (name ++ [']'])) (.name name) ∧ ∀ k ∈ keywords, ReadsAs k (.keyword k)
  | single item => ReadsAs item.line (.arrow item.pattern item.target)
  | cluster items =>
    1 < items.length ∧ ∀ a ∈ items, ReadsAs a.line (.arrow a.pattern a.target)

theorem readable_ofAliases {items : List Alias} (hne : items ≠ [])
    (h : ∀ a ∈ items, ReadsAs a.line (.arrow a.pattern a.target)) :
    (ofAliases items).Readable := by
  obtain ⟨item, rest, rfl⟩ := List.exists_cons_of_ne_nil hne
  cases rest with
  | nil => exact h item (by simp)
  | cons second rest => exact ⟨by simp, h⟩

def isAliases : GroupKind → Bool
  | single _ | cluster _ => true
  | _ => false

/-- The lines of a group directly below another one open a group of their
own. -/
def OpensBelow (above below : GroupKind) : Prop :=
  (∃ name keywords, below = named name keywords) ∨ above.isAliases ≠ below.isAliases

end GroupKind

namespace Group

/-- Every line of the group and of its comments is read back. -/
structure Readable (g : Group) : Prop where
  kind : g.kind.Readable
  comments : ∀ c ∈ g.comments, IsNote c

/-- The group has no place in a text or in a run. -/
def Fresh (g : Group) : Prop :=
  g.start = 0 ∧ g.related = none

/-- A group continues the run of the group above it. -/
def Follows (above below : Group) : Prop :=
  below.comments = [] ∧ above.kind.OpensBelow below.kind ∨
    below.comments ≠ [] ∧ [] ∉ below.comments

def StartsRun (g : Group) : Prop :=
  g.comments = [] ∨ [] ∈ g.comments ∧ ∃ c ∈ g.comments, c ≠ []

def StartsList (g : Group) : Prop :=
  g.comments.head? ≠ some []

/-- Groups without a blank line between them. -/
structure IsRun (run : List Group) : Prop where
  ne_nil : run ≠ []
  readable : ∀ g ∈ run, g.Readable
  fresh : ∀ g ∈ run, g.Fresh
  follows : run.IsChain Follows

/-- The runs that a list can have when it was read from a text. -/
structure Canonical (runs : List (List Group)) : Prop where
  isRun : ∀ run ∈ runs, IsRun run
  startsRun : runs.IsChain fun _ run => ∀ g ∈ run.head?, g.StartsRun
  startsList : ∀ run ∈ runs.head?, ∀ g ∈ run.head?, g.StartsList

theorem canonical_nil : Canonical [] :=
  ⟨by simp, List.isChain_nil, by simp⟩

theorem Canonical.concat {runs : List (List Group)} {run : List Group} (h : Canonical runs)
    (hrun : IsRun run) (hlist : runs = [] → ∀ g ∈ run.head?, g.StartsList)
    (hnext : runs ≠ [] → ∀ g ∈ run.head?, g.StartsRun) : Canonical (runs ++ [run]) := by
  refine ⟨?_, ?_, ?_⟩
  · exact forall_mem_concat h.isRun hrun
  · refine List.isChain_append.mpr ⟨h.startsRun, List.isChain_singleton _, ?_⟩
    intro above habove below hbelow g hg
    obtain rfl : run = below := by simpa using hbelow
    refine hnext ?_ g hg
    rintro rfl
    cases habove
  · cases runs with
    | nil => simpa using hlist rfl
    | cons first rest => simpa using h.startsList

theorem isRun_concat_iff {run : List Group} {g : Group} :
    IsRun (run ++ [g]) ↔
      (run ≠ [] → IsRun run) ∧ g.Readable ∧ g.Fresh ∧ ∀ last ∈ run.getLast?, last.Follows g := by
  constructor
  · intro h
    obtain ⟨hchain, -, hlast⟩ := List.isChain_append.mp h.follows
    refine ⟨?_, h.readable g (by simp), h.fresh g (by simp), fun last hmem => hlast last hmem g rfl⟩
    intro hne
    exact ⟨hne, fun h' hh => h.readable h' (by simp [hh]), fun h' hh => h.fresh h' (by simp [hh]),
      hchain⟩
  · rintro ⟨hrun, hreadable, hfresh, hfollows⟩
    refine ⟨by simp, ?_, ?_, ?_⟩
    · exact forall_mem_concat
        (fun h hh => (hrun (List.ne_nil_of_mem hh)).readable h hh) hreadable
    · exact forall_mem_concat (fun h hh => (hrun (List.ne_nil_of_mem hh)).fresh h hh) hfresh
    · have hchain : run.IsChain Follows := by
        by_cases hnil : run = []
        · rw [hnil]
          exact List.isChain_nil
        · exact (hrun hnil).follows
      refine List.isChain_append.mpr ⟨hchain, List.isChain_singleton g, ?_⟩
      intro last hlast h hh
      obtain rfl : g = h := by simpa using hh
      exact hfollows last hlast

/-- The last run in another form, with the same comments above it. -/
theorem Canonical.replaceLast {runs : List (List Group)} {run run' : List Group}
    (h : Canonical (runs ++ [run])) (hrun : IsRun run')
    (hhead : run'.head?.map comments = run.head?.map comments) : Canonical (runs ++ [run']) := by
  obtain ⟨hchain, -, hlast⟩ := List.isChain_append.mp h.startsRun
  have hfront : Canonical runs := by
    refine ⟨fun r hr => h.isRun r (by simp [hr]), hchain, ?_⟩
    cases runs with
    | nil => simp
    | cons first rest => simpa using h.startsList
  -- What a group starts depends on its comments alone.
  have hcomments : ∀ g ∈ run'.head?, ∃ g' ∈ run.head?, g.comments = g'.comments := by
    intro g hg
    rw [hg, Option.map_some] at hhead
    obtain ⟨g', hg', hsame⟩ := Option.map_eq_some_iff.mp hhead.symm
    exact ⟨g', hg', hsame.symm⟩
  refine hfront.concat hrun ?_ ?_
  · rintro rfl g hg
    obtain ⟨g', hg', hsame⟩ := hcomments g hg
    rw [StartsList, hsame]
    exact h.startsList run rfl g' hg'
  · intro hne g hg
    obtain ⟨g', hg', hsame⟩ := hcomments g hg
    have hstarts := hlast (runs.getLast hne) (List.getLast?_eq_getLast_of_ne_nil hne) run rfl g' hg'
    rwa [StartsRun, hsame]

/-! ## Numbers -/

/-- The number for the run that comes behind another one. -/
def nextCluster (cluster : Nat) (run : List Group) : Nat :=
  if run.length > 1 then cluster + 1 else cluster

def numberRuns (cluster : Nat) : List (List Group) → List Group
  | [] => []
  | run :: runs => Assembly.numberRun cluster run ++ numberRuns (nextCluster cluster run) runs

theorem numberRuns_concat (cluster : Nat) (runs : List (List Group)) (run : List Group) :
    numberRuns cluster (runs ++ [run]) =
      numberRuns cluster runs ++ Assembly.numberRun (runs.foldl nextCluster cluster) run := by
  induction runs generalizing cluster with
  | nil => simp [numberRuns]
  | cons first runs ih => simp [numberRuns, ih]

theorem head?_numberRun (cluster : Nat) (run : List Group) :
    (Assembly.numberRun cluster run).head?.map comments = run.head?.map comments := by
  rw [← List.head?_map, ← List.head?_map, Assembly.map_numberRun fun _ _ => rfl]

/-! ## Lines -/

def runLines (run : List Group) : List Text :=
  run.flatMap fun g => g.comments ++ g.kind.lines

/-- The blank line above a group that has no comments above it, or at the
end. -/
def blankAbove (next : Option Group) : List Text :=
  if (next.map comments).all List.isEmpty then [[]] else []

def runsLines : List (List Group) → List Text
  | [] => []
  | run :: runs => runLines run ++ blankAbove (runs.flatten.head?) ++ runsLines runs

theorem blankAfter_eq_of_continues {g : Group} {r : Related} (hr : g.related = some r)
    (hcontinues : r.continues = true) (next : Group) : g.blankAfter (some next) = false := by
  simp [blankAfter, hr, hcontinues]

theorem blankAfter_eq_of_not_continues {g : Group}
    (h : (g.related.map (·.continues)).getD false = false) (next : Option Group) :
    (if g.blankAfter next then [[]] else []) = blankAbove next := by
  cases next with
  | none => rfl
  | some n => simp [blankAfter, blankAbove, h]

theorem blocks_numbered (cluster : Nat) {total k : Nat} {run : List Group} (rest : List Group)
    (hrun : run ≠ []) (htotal : k + run.length = total) :
    blocks (run.mapIdx (fun i g => { g with related := some ⟨cluster, k + i + 1, total⟩ }) ++
      rest) = runLines run ++ blankAbove rest.head? ++ blocks rest := by
  induction run generalizing k with
  | nil => exact absurd rfl hrun
  | cons g run ih =>
      cases run with
      | nil =>
          have hlast : (some (⟨cluster, k + 0 + 1, total⟩ : Related)).map (·.continues) =
              some false := by
            simp only [List.length_cons, List.length_nil] at htotal
            simp [Related.continues, htotal]
          simp only [List.mapIdx_cons, List.mapIdx_nil, List.cons_append, List.nil_append, blocks,
            block]
          rw [blankAfter_eq_of_not_continues (by rw [hlast]; rfl)]
          simp [runLines]
      | cons h run =>
          have htotal' : k + 1 + (h :: run).length = total := by
            rw [List.length_cons] at htotal
            omega
          have hindex : (fun i (g : Group) =>
              { g with related := some ⟨cluster, k + (i + 1) + 1, total⟩ }) =
              fun i g => { g with related := some ⟨cluster, k + 1 + i + 1, total⟩ } := by
            funext i g
            rw [Nat.add_assoc k 1 i, Nat.add_comm 1 i]
          have hrest := ih (by simp) htotal'
          have hcontinues : (⟨cluster, k + 0 + 1, total⟩ : Related).continues = true := by
            simp only [List.length_cons] at htotal
            simp only [Related.continues, decide_eq_true_eq]
            omega
          rw [List.mapIdx_cons, hindex, List.cons_append, blocks, hrest]
          rw [List.mapIdx_cons, List.cons_append, List.head?_cons, block,
            blankAfter_eq_of_continues rfl hcontinues]
          simp [runLines]

theorem blocks_numberRun (cluster : Nat) {run : List Group} (rest : List Group)
    (hrun : IsRun run) :
    blocks (Assembly.numberRun cluster run ++ rest) =
      runLines run ++ blankAbove rest.head? ++ blocks rest := by
  unfold Assembly.numberRun
  split
  · have hnumbered := blocks_numbered cluster (k := 0) rest hrun.ne_nil (Nat.zero_add _)
    simpa using hnumbered
  · next hlength =>
      obtain ⟨g, rfl⟩ : ∃ g, run = [g] := by
        have hpos := List.length_pos_iff.mpr hrun.ne_nil
        exact List.length_eq_one_iff.mp (by omega)
      have hrelated : g.related = none := (hrun.fresh g (by simp)).2
      rw [List.cons_append, List.nil_append, blocks, block,
        blankAfter_eq_of_not_continues (by rw [hrelated]; rfl)]
      simp [runLines]

theorem blankAbove_congr {g h : Option Group} (hsame : g.map comments = h.map comments) :
    blankAbove g = blankAbove h := by
  rw [blankAbove, hsame, blankAbove]

theorem head?_numberRuns (cluster : Nat) {runs : List (List Group)}
    (hrun : ∀ run ∈ runs, IsRun run) :
    (numberRuns cluster runs).head?.map comments = runs.flatten.head?.map comments := by
  cases runs with
  | nil => rfl
  | cons run runs =>
      have hne := (hrun run (by simp)).ne_nil
      have hhead := head?_numberRun cluster run
      obtain ⟨g, rest, rfl⟩ := List.exists_cons_of_ne_nil hne
      rw [numberRuns, List.head?_append, List.flatten_cons, List.head?_append]
      cases hnumbered : (Assembly.numberRun cluster (g :: rest)).head? with
      | none => simp [hnumbered] at hhead
      | some h => simpa [hnumbered] using hhead

theorem blocks_numberRuns (cluster : Nat) {runs : List (List Group)}
    (hrun : ∀ run ∈ runs, IsRun run) : blocks (numberRuns cluster runs) = runsLines runs := by
  induction runs generalizing cluster with
  | nil => rfl
  | cons run runs ih =>
      have hrest : ∀ r ∈ runs, IsRun r := fun r hr => hrun r (by simp [hr])
      have hhead := blankAbove_congr (head?_numberRuns (nextCluster cluster run) hrest)
      rw [numberRuns, blocks_numberRun cluster _ (hrun run (by simp)), ih _ hrest, hhead]
      rfl

/-! ## No sentinels -/

theorem isInside_of_mem_lines {kind : GroupKind} (h : kind.Readable) :
    ∀ line ∈ kind.lines, IsInside line := by
  cases kind with
  | plain keywords =>
      intro line hline
      exact isInside_of_readsAs (h.2 line hline) (by simp)
  | named name keywords =>
      intro line hline
      rcases List.mem_cons.mp hline with rfl | hline
      · exact isInside_of_readsAs h.1 (by simp)
      · exact isInside_of_readsAs (h.2 line hline) (by simp)
  | single item =>
      intro line hline
      rw [List.mem_singleton.mp hline]
      exact isInside_of_readsAs h (by simp)
  | cluster items =>
      intro line hline
      obtain ⟨a, ha, rfl⟩ := List.mem_map.mp hline
      exact isInside_of_readsAs (h.2 a ha) (by simp)

theorem isInside_of_mem_runsLines {runs : List (List Group)} (hrun : ∀ run ∈ runs, IsRun run) :
    ∀ line ∈ runsLines runs, IsInside line := by
  induction runs with
  | nil => simp [runsLines]
  | cons run runs ih =>
      have hrest := ih fun r hr => hrun r (by simp [hr])
      intro line hline
      rw [runsLines, List.mem_append, List.mem_append] at hline
      rcases hline with (hline | hline) | hline
      · obtain ⟨g, hg, hline⟩ := List.mem_flatMap.mp hline
        have hreadable := (hrun run (by simp)).readable g hg
        rcases List.mem_append.mp hline with hline | hline
        · exact isInside_of_isNote (hreadable.comments line hline)
        · exact isInside_of_mem_lines hreadable.kind line hline
      · have hnil : line = [] := by
          unfold blankAbove at hline
          split at hline
          · exact List.mem_singleton.mp hline
          · cases hline
        rw [hnil]
        exact isInside_nil
      · exact hrest line hline

end Group

namespace KeywordList

theorem groupLines_eq_runsLines {l : KeywordList} {runs : List (List Group)}
    (hgroups : l.groups = Group.numberRuns 0 runs) (h : Group.Canonical runs) :
    l.groupLines = Group.runsLines runs := by
  have hblocks := Group.blocks_numberRuns 0 h.isRun
  have hhead := Group.head?_numberRuns 0 h.isRun
  rw [← hblocks, groupLines, hgroups]
  cases hnumbered : Group.numberRuns 0 runs with
  | nil => rfl
  | cons g gs =>
      have hstart : g.StartsList := by
        rw [hnumbered, List.head?_cons, Option.map_some] at hhead
        obtain ⟨g', hg', hsame⟩ := Option.map_eq_some_iff.mp hhead.symm
        rw [Group.StartsList, ← hsame]
        cases runs with
        | nil => cases hg'
        | cons run rest =>
            have hne := (h.isRun run (by simp)).ne_nil
            obtain ⟨first, others, rfl⟩ := List.exists_cons_of_ne_nil hne
            obtain rfl : first = g' := by simpa using hg'
            exact h.startsList _ rfl first rfl
      have hcomments : g.comments.dropWhile (·.isEmpty) = g.comments := by
        cases hcomments : g.comments with
        | nil => rfl
        | cons c cs =>
            have hne : c ≠ [] := by
              rintro rfl
              exact hstart (by simp [hcomments])
            simp [hne]
      dsimp only
      rw [hcomments, Group.blocks]

end KeywordList

end Marginalia.Keywords
