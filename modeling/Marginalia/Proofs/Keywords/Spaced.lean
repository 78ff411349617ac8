import Marginalia.Proofs.Keywords.Places
import Marginalia.Proofs.Keywords.Rearrange

/-!
# What is read of an edited list

An edited list need not be one that a text gives.  Groups that merge can be
written as one group in the first place, a comment that is only a blank line
stands for the blank line that is written anyway, and what the runs are is told
by the lines alone: a run goes on where no blank line is written.  So every list
that can be written has the lines of a canonical list, and is read back as that
list.
-/

namespace Marginalia.Keywords

/-! ## Groups that are read as one -/

namespace GroupKind

/-- The content of a group with the lines of a group below that does not open
there. -/
def absorb : GroupKind → GroupKind → GroupKind
  | plain keywords, plain more => plain (keywords ++ more)
  | named name keywords, plain more => named name (keywords ++ more)
  | single item, single next => cluster [item, next]
  | single item, cluster more => cluster (item :: more)
  | cluster items, single next => cluster (items ++ [next])
  | cluster items, cluster more => cluster (items ++ more)
  | above, _ => above

variable {above below : GroupKind}

theorem absorb_spec (habove : above.Readable) (hbelow : below.Readable)
    (hjoins : ¬above.OpensBelow below) :
    (above.absorb below).Readable ∧ (above.absorb below).lines = above.lines ++ below.lines ∧
      (above.absorb below).isAliases = below.isAliases := by
  simp only [OpensBelow, not_or, not_exists, ne_eq, not_not] at hjoins
  obtain ⟨hnamed, hsame⟩ := hjoins
  cases below with
  | named name keywords => exact absurd rfl (hnamed name keywords)
  | plain more =>
      cases above with
      | plain keywords =>
          refine ⟨⟨by simp [habove.1], ?_⟩, rfl, rfl⟩
          exact List.forall_mem_append.mpr ⟨habove.2, hbelow.2⟩
      | named name keywords =>
          exact ⟨⟨habove.1, List.forall_mem_append.mpr ⟨habove.2, hbelow.2⟩⟩, rfl, rfl⟩
      | single item => cases hsame
      | cluster items => cases hsame
  | single next =>
      cases above with
      | plain keywords => cases hsame
      | named name keywords => cases hsame
      | single item =>
          refine ⟨⟨by simp, ?_⟩, rfl, rfl⟩
          exact List.forall_mem_cons.mpr ⟨habove, List.forall_mem_singleton.mpr hbelow⟩
      | cluster items =>
          refine ⟨⟨?_, forall_mem_concat habove.2 hbelow⟩, by simp [absorb, lines], rfl⟩
          rw [List.length_append]
          exact Nat.lt_add_right _ habove.1
  | cluster more =>
      cases above with
      | plain keywords => cases hsame
      | named name keywords => cases hsame
      | single item =>
          refine ⟨⟨?_, List.forall_mem_cons.mpr ⟨habove, hbelow.2⟩⟩, rfl, rfl⟩
          exact Nat.lt_succ_of_lt hbelow.1
      | cluster items =>
          refine ⟨⟨?_, List.forall_mem_append.mpr ⟨habove.2, hbelow.2⟩⟩,
            by simp [absorb, lines], rfl⟩
          rw [List.length_append]
          exact Nat.lt_add_right _ habove.1

end GroupKind

namespace Group

/-- A group with the lines of a group below that merges with it. -/
def absorb (above below : Group) : Group :=
  { above with kind := above.kind.absorb below.kind, related := below.related }

def mergeAll : List Group → List Group
  | [] => []
  | g :: gs =>
    match mergeAll gs with
    | [] => [g]
    | next :: rest => if g.Merges next then g.absorb next :: rest else g :: next :: rest

/-- The comments above a group are none, stand for one blank line, or hold a
comment. -/
def IsSpaced (g : Group) : Prop :=
  g.comments = [] ∨ g.comments = [[]] ∨ ∃ c ∈ g.comments, c ≠ []

theorem blocks_absorb {above below : Group} (hmerges : above.Merges below)
    (habove : above.Readable) (hbelow : below.Readable) (rest : List Group) :
    blocks (above.absorb below :: rest) = blocks (above :: below :: rest) := by
  obtain ⟨hcomments, hblank, hjoins⟩ := hmerges
  have hlines := (GroupKind.absorb_spec habove.kind hbelow.kind hjoins).2.1
  have hafter : (above.absorb below).blankAfter rest.head? = below.blankAfter rest.head? := rfl
  simp only [blocks, block, hafter, hcomments, hblank, List.head?_cons]
  simp [absorb, hlines]

theorem absorb_merges_iff {above below : Group} (hmerges : above.Merges below)
    (habove : above.Readable) (hbelow : below.Readable) (next : Group) :
    (above.absorb below).Merges next ↔ below.Merges next := by
  obtain ⟨-, -, hjoins⟩ := hmerges
  have hshape := (GroupKind.absorb_spec habove.kind hbelow.kind hjoins).2.2
  have hopens := Assembly.opensBelow_congr hshape next.kind
  rw [Merges, Merges, ← hopens]
  rfl

/-- What groups become when those that merge are put together: the lines stay,
and nothing is put together when nothing merges. -/
structure MergedAs (gs merged : List Group) : Prop where
  readable : ∀ g ∈ merged, g.Readable
  spaced : ∀ g ∈ merged, g.IsSpaced
  head?_eq : merged.head?.map comments = gs.head?.map comments
  separate : merged.IsChain fun above below => ¬above.Merges below
  blocks_eq : blocks merged = blocks gs
  eq_or_lt : merged = gs ∨
    merged.length < gs.length ∧ ¬gs.IsChain fun above below => ¬above.Merges below

/-- What is written of a group depends on the groups below only by the comments
of the next one. -/
theorem blocks_cons_congr (g : Group) {gs gs' : List Group}
    (hhead : gs.head?.map comments = gs'.head?.map comments) (hblocks : blocks gs = blocks gs') :
    blocks (g :: gs) = blocks (g :: gs') := by
  have hafter : g.blankAfter gs.head? = g.blankAfter gs'.head? := by
    cases gs with
    | nil =>
        cases gs' with
        | nil => rfl
        | cons next' rest' => cases hhead
    | cons next rest =>
        cases gs' with
        | nil => cases hhead
        | cons next' rest' =>
            have hcomments : next.comments = next'.comments := Option.some.inj hhead
            simp only [List.head?_cons, blankAfter, hcomments]
  rw [blocks, blocks, block, block, hafter, hblocks]

theorem mergedAs_mergeAll {gs : List Group} (hreadable : ∀ g ∈ gs, g.Readable)
    (hspaced : ∀ g ∈ gs, g.IsSpaced) : MergedAs gs (mergeAll gs) := by
  induction gs with
  | nil => exact ⟨by simp [mergeAll], by simp [mergeAll], rfl, List.isChain_nil, rfl, Or.inl rfl⟩
  | cons g gs ih =>
      obtain ⟨hg, hreadable'⟩ := List.forall_mem_cons.mp hreadable
      obtain ⟨hgSpaced, hspaced'⟩ := List.forall_mem_cons.mp hspaced
      have hgs := ih hreadable' hspaced'
      have hlines := blocks_cons_congr g hgs.head?_eq hgs.blocks_eq
      rw [mergeAll]
      cases hmerged : mergeAll gs with
      | nil =>
          obtain rfl : gs = [] := by
            have hhead := hgs.head?_eq
            rw [hmerged] at hhead
            exact List.head?_eq_none_iff.mp (Option.map_eq_none_iff.mp hhead.symm)
          exact ⟨by simpa using hg, by simpa using hgSpaced, rfl, List.isChain_singleton g, rfl,
            Or.inl rfl⟩
      | cons next rest =>
          rw [hmerged] at hgs hlines
          obtain ⟨hnext, hrest⟩ := List.forall_mem_cons.mp hgs.readable
          obtain ⟨hbelow, hseparate⟩ := List.isChain_cons.mp hgs.separate
          dsimp only
          split
          · next hmerges =>
              have habsorbed :=
                (GroupKind.absorb_spec hg.kind hnext.kind hmerges.2.2).1
              refine ⟨?_, ?_, rfl, ?_, ?_, ?_⟩
              · exact List.forall_mem_cons.mpr ⟨⟨habsorbed, hg.comments⟩, hrest⟩
              · exact List.forall_mem_cons.mpr
                  ⟨hgSpaced, (List.forall_mem_cons.mp hgs.spaced).2⟩
              · refine List.isChain_cons.mpr ⟨fun below hmem => ?_, hseparate⟩
                rw [absorb_merges_iff hmerges hg hnext]
                exact hbelow below hmem
              · rw [blocks_absorb hmerges hg hnext, hlines]
              · right
                rcases hgs.eq_or_lt with rfl | ⟨hless, hchain⟩
                · exact ⟨by simp, fun hall => (List.isChain_cons_cons.mp hall).1 hmerges⟩
                · refine ⟨Nat.lt_succ_of_lt hless, fun hall => hchain ?_⟩
                  exact (List.isChain_cons.mp hall).2
          · next hmerges =>
              refine ⟨List.forall_mem_cons.mpr ⟨hg, hgs.readable⟩,
                List.forall_mem_cons.mpr ⟨hgSpaced, hgs.spaced⟩, rfl,
                List.isChain_cons_cons.mpr ⟨hmerges, hgs.separate⟩, hlines, ?_⟩
              rcases hgs.eq_or_lt with rfl | ⟨hless, hchain⟩
              · exact Or.inl rfl
              · exact Or.inr ⟨Nat.succ_lt_succ hless, fun hall =>
                  hchain (List.isChain_cons.mp hall).2⟩

/-! ## Where runs go on -/

/-- No blank line is written between two groups. -/
def touches (above below : Group) : Bool :=
  !above.blankAfter (some below) && !below.comments.contains []

/-- The group as it is read back in its run. -/
def reread (g : Group) : Group :=
  ⟨g.kind, 0, if g.comments = [[]] then [] else g.comments, none⟩

/-- The runs that are read of some groups: a run goes on where no blank line is
written. -/
def rereadRuns : List Group → List (List Group)
  | [] => []
  | g :: gs =>
    match gs.head?.any (touches g), rereadRuns gs with
    | true, run :: runs => (g.reread :: run) :: runs
    | _, runs => [g.reread] :: runs

variable {g above below : Group}

theorem readable_reread (h : g.Readable) : g.reread.Readable := by
  refine ⟨h.kind, ?_⟩
  simp only [reread]
  split
  · simp
  · exact h.comments

theorem comments_reread_of_ne (h : g.comments ≠ [[]]) : g.reread.comments = g.comments :=
  if_neg h

theorem comments_ne_of_touches (h : above.touches below = true) : below.comments ≠ [[]] := by
  intro hone
  simp [touches, hone] at h

theorem follows_reread (htouches : above.touches below = true) (hseparate : ¬above.Merges below) :
    above.reread.Follows below.reread := by
  have hcomments := comments_reread_of_ne (comments_ne_of_touches htouches)
  simp only [touches, Bool.and_eq_true, Bool.not_eq_true'] at htouches
  obtain ⟨hafter, hblank⟩ := htouches
  rw [Follows, hcomments]
  by_cases hnone : below.comments = []
  · left
    refine ⟨hnone, ?_⟩
    by_contra hopens
    exact hseparate ⟨hnone, hafter, hopens⟩
  · exact Or.inr ⟨hnone, by simpa using hblank⟩

theorem startsRun_reread (htouches : above.touches below = false) (hspaced : below.IsSpaced) :
    below.reread.StartsRun := by
  rcases hspaced with hnone | hone | ⟨c, hc, hsome⟩
  · exact Or.inl (by simp [reread, hnone])
  · exact Or.inl (by simp [reread, hone])
  · have hne : below.comments ≠ [[]] := by
      intro hone
      rw [hone, List.mem_singleton] at hc
      exact hsome hc
    have hblank : [] ∈ below.comments := by
      have hafter : above.blankAfter (some below) = false := by
        simp [blankAfter, List.ne_nil_of_mem hc]
      simpa [touches, hafter] using htouches
    rw [StartsRun, comments_reread_of_ne hne]
    exact Or.inr ⟨hblank, c, hc, hsome⟩

/-- The comment that stands for the blank line above a run. -/
def lead (g : Option Group) : List Text :=
  if g.any fun g => decide (g.comments = [[]]) then [[]] else []

theorem lead_append_comments_reread (g : Group) :
    lead (some g) ++ g.reread.comments = g.comments := by
  by_cases hone : g.comments = [[]] <;> simp [lead, reread, hone]

/-- Below a run one blank line is written, unless comments say how far the next
run stands apart. -/
theorem blankAfter_append_lead {next : Option Group} (htouches : next.any (touches g) = false) :
    (if g.blankAfter next then [[]] else []) ++ lead next = blankAbove (next.map reread) := by
  cases next with
  | none => rfl
  | some next =>
      by_cases hnone : next.comments = []
      · have hafter : g.blankAfter (some next) = true := by simpa [touches, hnone] using htouches
        simp [hafter, lead, hnone, blankAbove, reread]
      · have hafter : g.blankAfter (some next) = false := by simp [blankAfter, hnone]
        by_cases hone : next.comments = [[]]
        · simp [hafter, lead, hone, blankAbove, reread]
        · simp [hafter, lead, hone, blankAbove, reread, hnone]

/-- What the runs are that are read of some groups. -/
structure RereadAs (gs : List Group) (runs : List (List Group)) : Prop where
  flatten_eq : runs.flatten = gs.map reread
  isRun : ∀ run ∈ runs, IsRun run
  startsRun : runs.IsChain fun _ run => ∀ g ∈ run.head?, g.StartsRun
  blocks_eq : blocks gs = lead gs.head? ++ runsLines runs
  joints_eq : jointsOfRuns runs = joints touches gs

variable {gs : List Group} {run : List Group} {runs : List (List Group)}

/-- A group above that starts a run of its own. -/
theorem RereadAs.startRun (h : RereadAs gs runs) (hg : g.Readable)
    (hspaced : ∀ next ∈ gs.head?, next.IsSpaced) (htouches : gs.head?.any (touches g) = false) :
    RereadAs (g :: gs) ([g.reread] :: runs) := by
  have hhead : runs.flatten.head? = gs.head?.map reread := by rw [h.flatten_eq, List.head?_map]
  constructor
  · simp [h.flatten_eq]
  · refine List.forall_mem_cons.mpr ⟨?_, h.isRun⟩
    have hsingle : IsRun ([] ++ [g.reread]) :=
      isRun_concat_iff.mpr ⟨by simp, readable_reread hg, ⟨rfl, rfl⟩, by simp⟩
    exact hsingle
  · refine List.isChain_cons.mpr ⟨?_, h.startsRun⟩
    intro run hrun next hnext
    obtain ⟨runs', rfl⟩ := List.head?_eq_some_iff.mp hrun
    obtain ⟨run', rfl⟩ := List.head?_eq_some_iff.mp hnext
    obtain ⟨below, hbelow, rfl⟩ := Option.map_eq_some_iff.mp hhead.symm
    rw [hbelow] at htouches
    exact startsRun_reread htouches (hspaced below hbelow)
  · rw [blocks, block, h.blocks_eq, runsLines, hhead, ← blankAfter_append_lead htouches,
      ← lead_append_comments_reread g]
    simp [runLines, reread]
  · simp [jointsOfRuns, joints, htouches, ← h.joints_eq]

/-- A group above whose run goes on. -/
theorem RereadAs.joinRun {next : Group} (h : RereadAs (next :: gs) (run :: runs)) (hg : g.Readable)
    (htouches : touches g next = true) (hseparate : ¬g.Merges next) :
    RereadAs (g :: next :: gs) ((g.reread :: run) :: runs) := by
  obtain ⟨hrun, hruns⟩ := List.forall_mem_cons.mp h.isRun
  obtain ⟨first, rest, rfl⟩ := List.exists_cons_of_ne_nil hrun.ne_nil
  obtain rfl : first = next.reread := by
    have hfirst := congrArg List.head? h.flatten_eq
    simpa using hfirst
  have hfollows := follows_reread htouches hseparate
  have hlead : lead (some next) = [] := by simp [lead, comments_ne_of_touches htouches]
  have hafter : g.blankAfter (some next) = false := by
    simp only [touches, Bool.and_eq_true, Bool.not_eq_true'] at htouches
    exact htouches.1
  constructor
  · simpa using h.flatten_eq
  · refine List.forall_mem_cons.mpr ⟨⟨by simp, ?_, ?_, ?_⟩, hruns⟩
    · exact List.forall_mem_cons.mpr ⟨readable_reread hg, hrun.readable⟩
    · exact List.forall_mem_cons.mpr ⟨⟨rfl, rfl⟩, hrun.fresh⟩
    · exact List.isChain_cons_cons.mpr ⟨hfollows, hrun.follows⟩
  · exact List.isChain_cons.mpr (List.isChain_cons.mp h.startsRun)
  · have hblocks := h.blocks_eq
    rw [List.head?_cons, hlead, List.nil_append] at hblocks
    rw [blocks, block, hblocks, List.head?_cons, hafter, List.head?_cons,
      ← lead_append_comments_reread g]
    simp [runsLines, runLines, reread]
  · have hjoints := h.joints_eq
    rw [joints, List.head?_cons, Option.any_some, htouches, ← hjoints]
    simp [jointsOfRuns, List.replicate_succ]

theorem RereadAs.eq_nil_iff (h : RereadAs gs runs) : runs = [] ↔ gs = [] := by
  constructor
  · rintro rfl
    simpa using h.flatten_eq
  · rintro rfl
    refine List.eq_nil_iff_forall_not_mem.mpr fun run hrun => ?_
    exact (h.isRun run hrun).ne_nil (List.flatten_eq_nil_iff.mp h.flatten_eq run hrun)

/-- Without a blank line above the first group the runs are canonical, with the
lines of the groups. -/
theorem RereadAs.canonical (h : RereadAs gs runs) (hfirst : ∀ g ∈ gs.head?, g.StartsList) :
    Canonical runs ∧ runsLines runs = blocks gs := by
  constructor
  · refine ⟨h.isRun, h.startsRun, ?_⟩
    intro run hrun g hg
    obtain ⟨runs', rfl⟩ := List.head?_eq_some_iff.mp hrun
    obtain ⟨run', rfl⟩ := List.head?_eq_some_iff.mp hg
    obtain ⟨first, rest, rfl, rfl, -⟩ := List.map_eq_cons_iff.mp h.flatten_eq.symm
    have hstarts := hfirst first rfl
    by_cases hone : first.comments = [[]]
    · simp [StartsList, reread, hone]
    · rwa [StartsList, comments_reread_of_ne hone]
  · have hlead : lead gs.head? = [] := by
      cases gs with
      | nil => rfl
      | cons first rest =>
          have hone : first.comments ≠ [[]] := fun hone => hfirst first rfl (by simp [hone])
          simp [lead, hone]
    rw [h.blocks_eq, hlead, List.nil_append]

theorem rereadAs_rereadRuns (hreadable : ∀ g ∈ gs, g.Readable) (hspaced : ∀ g ∈ gs, g.IsSpaced)
    (hseparate : gs.IsChain fun above below => ¬above.Merges below) :
    RereadAs gs (rereadRuns gs) := by
  induction gs with
  | nil => exact ⟨rfl, by simp [rereadRuns], List.isChain_nil, rfl, rfl⟩
  | cons g gs ih =>
      obtain ⟨hg, hreadable'⟩ := List.forall_mem_cons.mp hreadable
      obtain ⟨-, hspaced'⟩ := List.forall_mem_cons.mp hspaced
      obtain ⟨hbelow, hseparate'⟩ := List.isChain_cons.mp hseparate
      have hgs := ih hreadable' hspaced' hseparate'
      have hhead : ∀ next ∈ gs.head?, next.IsSpaced := fun next hnext =>
        hspaced' next (List.mem_of_mem_head? hnext)
      rw [rereadRuns]
      split
      · next run runs htouches hruns =>
          cases gs with
          | nil => cases htouches
          | cons next gs =>
              rw [hruns] at hgs
              exact hgs.joinRun hg htouches (hbelow next rfl)
      · next hruns =>
          apply hgs.startRun hg hhead
          by_contra htouches
          cases hrereads : rereadRuns gs with
          | nil =>
              obtain rfl : gs = [] := by simpa [hrereads] using hgs.flatten_eq
              exact htouches rfl
          | cons run runs => exact hruns run runs (by simpa using htouches) hrereads

/-! ## The first group -/

/-- The groups without the blank lines above the first one. -/
def startList : List Group → List Group
  | [] => []
  | g :: gs => { g with comments := g.comments.dropWhile (·.isEmpty) } :: gs

theorem startsList_startList : ∀ g ∈ (startList gs).head?, g.StartsList := by
  cases gs with
  | nil => simp [startList]
  | cons g gs =>
      intro g' hg' hhead
      obtain rfl := Option.some.inj hg'
      have hnot := List.head?_dropWhile_not (·.isEmpty) g.comments
      rw [hhead] at hnot
      simp at hnot

theorem startList_eq_self (h : ∀ g ∈ gs.head?, g.StartsList) : startList gs = gs := by
  cases gs with
  | nil => rfl
  | cons g gs =>
      have hkept : g.comments.dropWhile (·.isEmpty) = g.comments := by
        rw [List.dropWhile_eq_self_iff]
        intro hpos hempty
        exact h g rfl (by simpa [List.head?_eq_getElem?, hpos] using hempty)
      rw [startList, hkept]

theorem readable_startList (h : ∀ g ∈ gs, g.Readable) : ∀ g ∈ startList gs, g.Readable := by
  cases gs with
  | nil => exact h
  | cons g gs =>
      obtain ⟨hg, hgs⟩ := List.forall_mem_cons.mp h
      refine List.forall_mem_cons.mpr ⟨⟨hg.kind, fun c hc => ?_⟩, hgs⟩
      exact hg.comments c ((List.dropWhile_suffix _).subset hc)

theorem spaced_startList (h : ∀ g ∈ gs, g.IsSpaced) : ∀ g ∈ startList gs, g.IsSpaced := by
  have hstart : ∀ g ∈ (startList gs).head?, g.StartsList := startsList_startList
  cases gs with
  | nil => exact h
  | cons g gs =>
      refine List.forall_mem_cons.mpr ⟨?_, (List.forall_mem_cons.mp h).2⟩
      have hhead := hstart _ rfl
      simp only [StartsList] at hhead
      simp only [IsSpaced]
      cases hcomments : g.comments.dropWhile (·.isEmpty) with
      | nil => exact Or.inl rfl
      | cons c cs =>
          refine Or.inr (Or.inr ⟨c, by simp, ?_⟩)
          rintro rfl
          simp [hcomments] at hhead

theorem isChain_startList_iff :
    ((startList gs).IsChain fun above below => ¬above.Merges below) ↔
      gs.IsChain fun above below => ¬above.Merges below := by
  cases gs with
  | nil => rfl
  | cons g gs =>
      rw [startList, List.isChain_cons, List.isChain_cons]
      rfl

theorem joints_startList : joints touches (startList gs) = joints touches gs := by
  cases gs <;> rfl

/-- Groups that can be written have the lines of canonical runs.  The places
there are those that the lines give; when groups merge there are fewer of
them. -/
theorem exists_canonical_runs (hreadable : ∀ g ∈ gs, g.Readable) (hspaced : ∀ g ∈ gs, g.IsSpaced) :
    ∃ runs, Canonical runs ∧ (runs = [] ↔ gs = []) ∧ runsLines runs = blocks (startList gs) ∧
      ((numberRuns 0 runs).map place? = placesFrom 0 (joints touches gs) ∧
          (gs.IsChain fun above below => ¬above.Merges below) ∨
        (numberRuns 0 runs).length < gs.length ∧
          ¬gs.IsChain fun above below => ¬above.Merges below) := by
  have hmerged := mergedAs_mergeAll (readable_startList hreadable) (spaced_startList hspaced)
  have hruns := rereadAs_rereadRuns hmerged.readable hmerged.spaced hmerged.separate
  generalize mergeAll (startList gs) = merged at hmerged hruns
  generalize rereadRuns merged = runs at hruns
  have hfirst : ∀ g ∈ merged.head?, g.StartsList := by
    intro g hg
    have hhead := hmerged.head?_eq
    rw [Option.mem_def.mp hg] at hhead
    obtain ⟨g', hg', hcomments⟩ := Option.map_eq_some_iff.mp hhead.symm
    have hstarts := startsList_startList g' hg'
    rwa [StartsList, hcomments] at hstarts
  obtain ⟨hcanonical, hlines⟩ := hruns.canonical hfirst
  have hplaces := map_place?_numberRuns 0 fun run hrun =>
    ⟨(hruns.isRun run hrun).ne_nil, fun g hg => ((hruns.isRun run hrun).fresh g hg).2⟩
  rw [hruns.joints_eq] at hplaces
  refine ⟨runs, hcanonical, ?_, hlines.trans hmerged.blocks_eq, ?_⟩
  · have hhead := hmerged.head?_eq
    rw [hruns.eq_nil_iff, ← List.head?_eq_none_iff, ← Option.map_eq_none_iff, hhead]
    cases gs <;> simp [startList]
  · rcases hmerged.eq_or_lt with rfl | ⟨hless, hchain⟩
    · left
      rw [joints_startList] at hplaces
      exact ⟨hplaces, isChain_startList_iff.mp hmerged.separate⟩
    · right
      have hlength := congrArg List.length hplaces
      rw [List.length_map, length_placesFrom, length_joints] at hlength
      have hsame : (startList gs).length = gs.length := by cases gs <;> rfl
      rw [isChain_startList_iff] at hchain
      exact ⟨by omega, hchain⟩

/-! ## Canonical runs -/

theorem exists_of_mem_numberRuns {cluster : Nat} {runs : List (List Group)}
    (h : g ∈ numberRuns cluster runs) :
    ∃ run ∈ runs, ∃ g' ∈ run, g'.kind = g.kind ∧ g'.comments = g.comments := by
  induction runs generalizing cluster with
  | nil => cases h
  | cons run runs ih =>
      rcases List.mem_append.mp h with h | h
      · have hmem : (g.kind, g.comments) ∈
            (Assembly.numberRun cluster run).map fun g => (g.kind, g.comments) :=
          List.mem_map.mpr ⟨g, h, rfl⟩
        rw [Assembly.map_numberRun fun _ _ => rfl] at hmem
        obtain ⟨g', hg', hsame⟩ := List.mem_map.mp hmem
        obtain ⟨hkind, hcomments⟩ := Prod.mk.inj hsame
        exact ⟨run, by simp, g', hg', hkind, hcomments⟩
      · obtain ⟨run', hrun', hfound⟩ := ih h
        exact ⟨run', by simp [hrun'], hfound⟩

theorem exists_rel_of_mem {α : Type} {R : α → α → Prop} {x y : α} {xs : List α}
    (h : (x :: xs).IsChain R) (hy : y ∈ xs) : ∃ z, R z y := by
  induction xs generalizing x with
  | nil => cases hy
  | cons next xs ih =>
      obtain ⟨hnext, hrest⟩ := List.isChain_cons_cons.mp h
      rcases List.mem_cons.mp hy with rfl | hy
      · exact ⟨x, hnext⟩
      · exact ih hrest hy

/-- The comments above a group that was read are none, or hold one. -/
theorem Canonical.eq_nil_or_exists_ne {runs : List (List Group)} (h : Canonical runs)
    {run : List Group} (hrun : run ∈ runs) (hg : g ∈ run) :
    g.comments = [] ∨ ∃ c ∈ g.comments, c ≠ [] := by
  obtain ⟨first, rest, rfl⟩ := List.exists_cons_of_ne_nil (h.isRun run hrun).ne_nil
  rcases List.mem_cons.mp hg with rfl | hg
  · obtain ⟨firstRun, others, rfl⟩ := List.exists_cons_of_ne_nil (List.ne_nil_of_mem hrun)
    rcases List.mem_cons.mp hrun with rfl | hrun
    · have hstarts := h.startsList _ rfl g rfl
      cases hcomments : g.comments with
      | nil => exact Or.inl rfl
      | cons c cs =>
          refine Or.inr ⟨c, by simp, ?_⟩
          rintro rfl
          exact hstarts (by simp [hcomments])
    · obtain ⟨above, hstarts⟩ := exists_rel_of_mem h.startsRun hrun
      rcases hstarts g rfl with hnone | ⟨-, hsome⟩
      · exact Or.inl hnone
      · exact Or.inr hsome
  · obtain ⟨above, ⟨hnone, -⟩ | ⟨hsome, hblank⟩⟩ :=
      exists_rel_of_mem (h.isRun _ hrun).follows hg
    · exact Or.inl hnone
    · obtain ⟨c, cs, hcomments⟩ := List.exists_cons_of_ne_nil hsome
      refine Or.inr ⟨c, by simp [hcomments], ?_⟩
      rintro rfl
      exact hblank (by simp [hcomments])

theorem Canonical.isSpaced {runs : List (List Group)} (h : Canonical runs) {run : List Group}
    (hrun : run ∈ runs) (hg : g ∈ run) : g.IsSpaced :=
  (h.eq_nil_or_exists_ne hrun hg).imp_right Or.inr

end Group

namespace KeywordList

variable {l : KeywordList}

/-- The comments of the list are spaced as in a list that was read, apart from a
blank line that a group inherited from a removed one. -/
structure Spaced (l : KeywordList) : Prop where
  groups : ∀ g ∈ l.groups, g.IsSpaced
  trailing : l.trailing = [] ∨ ∃ c ∈ l.trailing, c ≠ []

theorem spaced_run? (h : l.Writable) (hs : l.Spaced) {e : KeywordEdit} {l' : KeywordList}
    (he : e.KeepsWords) (hl : e.run? l = some l') : l'.Spaced := by
  have hP : KeptByEdits fun kind cs =>
      kind.Readable ∧ (cs = [] ∨ cs = [[]] ∨ ∃ c ∈ cs, c ≠ []) :=
    ⟨fun _ _ h => h.1, fun _ _ _ h hkind => ⟨hkind, h.2⟩, fun _ hkind => ⟨hkind, Or.inl rfl⟩,
      fun _ _ h => ⟨h.1, Or.inr (Or.inl rfl)⟩⟩
  obtain ⟨hgroups, -, htrailing⟩ :=
    forall_mem_run? hP (fun g hg => ⟨(h.groups g hg).kind, hs.groups g hg⟩) he hl
  exact ⟨fun g hg => (hgroups g hg).2, by rw [htrailing]; exact hs.trailing⟩

theorem Canonical.writable_spaced (h : l.Canonical) : l.Writable ∧ l.Spaced := by
  obtain ⟨hwords, runs, hruns, hgroups, htrailing⟩ := h
  have hfound : ∀ g ∈ l.groups, ∃ run ∈ runs, ∃ g' ∈ run, g'.kind = g.kind ∧
      g'.comments = g.comments := fun g hg => by
    rw [hgroups] at hg
    exact Group.exists_of_mem_numberRuns hg
  constructor
  · refine ⟨hwords, fun g hg => ?_, htrailing.notes⟩
    obtain ⟨run, hrun, g', hg', hkind, hcomments⟩ := hfound g hg
    obtain ⟨hreadable, hnotes⟩ := (hruns.isRun run hrun).readable g' hg'
    exact ⟨by rwa [← hkind], by rwa [← hcomments]⟩
  · constructor
    · intro g hg
      obtain ⟨run, hrun, g', hg', -, hcomments⟩ := hfound g hg
      have hspaced := hruns.isSpaced hrun hg'
      rwa [Group.IsSpaced, hcomments] at hspaced
    · by_cases hnil : runs = []
      · cases htrail : l.trailing with
        | nil => exact Or.inl rfl
        | cons c cs =>
            refine Or.inr ⟨c, by simp, ?_⟩
            rintro rfl
            exact htrailing.of_nil hnil (by simp [htrail])
      · exact htrailing.of_ne_nil hnil

theorem writable_spaced_of_unplaced (h : l.unplaced.Canonical) : l.Writable ∧ l.Spaced := by
  obtain ⟨hwritable, hspaced⟩ := h.writable_spaced
  have hmem : ∀ g ∈ l.groups, g.unplaced ∈ l.unplaced.groups := fun g hg => List.mem_map_of_mem hg
  constructor
  · refine ⟨hwritable.words, fun g hg => ?_, hwritable.trailing⟩
    obtain ⟨hkind, hcomments⟩ := hwritable.groups g.unplaced (hmem g hg)
    exact ⟨hkind, hcomments⟩
  · exact ⟨fun g hg => hspaced.groups g.unplaced (hmem g hg), hspaced.trailing⟩

theorem groupLines_eq_blocks (l : KeywordList) :
    l.groupLines = Group.blocks (Group.startList l.groups) := by
  unfold groupLines
  cases l.groups <;> rfl

/-- A list that can be written has the lines of a canonical list, with the
places that its lines give; when groups merge there are fewer of them. -/
theorem exists_canonical_inside (h : l.Writable) (hs : l.Spaced)
    (htrailing : l.groups = [] → l.trailing.head? ≠ some []) :
    ∃ k : KeywordList, k.Canonical ∧ k.globalFilter = l.globalFilter ∧ k.inside = l.inside ∧
      (k.groups.map Group.place? = Group.placesFrom 0 (Group.joints Group.touches l.groups) ∧
          l.Separate ∨
        k.groups.length < l.groups.length ∧ ¬l.Separate) := by
  obtain ⟨runs, hcanonical, hempty, hlines, hplaces⟩ :=
    Group.exists_canonical_runs h.groups hs.groups
  have htrails : IsTrailing runs l.trailing :=
    ⟨h.trailing, fun hnil => htrailing (hempty.mp hnil), fun _ => hs.trailing⟩
  refine ⟨⟨l.globalFilter, Group.numberRuns 0 runs, l.trailing⟩,
    ⟨h.words, runs, hcanonical, rfl, htrails⟩, rfl, ?_, hplaces⟩
  have hgroups : (Group.numberRuns 0 runs).isEmpty = l.groups.isEmpty := by
    rw [Bool.eq_iff_iff, List.isEmpty_iff, List.isEmpty_iff, ← hempty]
    refine ⟨fun hnil => ?_, by rintro rfl; rfl⟩
    by_contra hne
    exact Assembly.numberRuns_ne_nil hcanonical.isRun hne hnil
  rw [inside, inside, groupLines_eq_runsLines rfl hcanonical, hlines, groupLines_eq_blocks, hgroups]

end KeywordList

end Marginalia.Keywords
