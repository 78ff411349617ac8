import Marginalia.Proofs.Keywords.Runs

/-!
# Reading written groups

Canonical runs are read back from their lines.  The reading passes through two
kinds of places: in a run, with its last group open, and between runs, where
nothing is open.  The lemmas say how comments and the lines of a group lead from
one place to the next; the main result puts them together by induction on the
runs.
-/

namespace Marginalia.Keywords

namespace GroupKind

def toOpen : GroupKind → OpenKind
  | plain keywords => .plain keywords
  | named name keywords => .named name keywords
  | single item => .aliases [item]
  | cluster items => .aliases items

theorem close_toOpen {kind : GroupKind} (h : kind.Readable) : kind.toOpen.close = kind := by
  cases kind with
  | plain keywords => rfl
  | named name keywords => rfl
  | single item => rfl
  | cluster items =>
      obtain ⟨first, rest, rfl⟩ := List.exists_cons_of_length_pos (Nat.lt_of_succ_lt h.1)
      cases rest with
      | nil => exact absurd h.1 (Nat.lt_irrefl 1)
      | cons second rest => rfl

end GroupKind

namespace OpenKind

/-- The content of an open group after some more lines. -/
def extendAll? (kind : OpenKind) (lines : List Text) : Option OpenKind :=
  lines.foldlM (fun kind line => kind.extend? (LineClass.ofContent line)) kind

theorem extendAll?_cons {kind kind' : OpenKind} {line : Text}
    (h : kind.extend? (LineClass.ofContent line) = some kind') (lines : List Text) :
    kind.extendAll? (line :: lines) = kind'.extendAll? lines := by
  simp only [extendAll?, List.foldlM_cons, h]
  rfl

/-- Lines that each add one item to an open group add all of them, in order. -/
theorem extendAll?_map {α : Type} {kind : List α → OpenKind} {write : α → Text} {more : List α}
    (items : List α) (h : ∀ x ∈ more, ∀ items,
      (kind items).extend? (LineClass.ofContent (write x)) = some (kind (items ++ [x]))) :
    extendAll? (kind items) (more.map write) = some (kind (items ++ more)) := by
  induction more generalizing items with
  | nil => simp [extendAll?]
  | cons x more ih =>
      have hrest := ih (items ++ [x]) fun y hy => h y (List.mem_cons_of_mem x hy)
      rw [List.map_cons, extendAll?_cons (h x (List.mem_cons_self ..) items), hrest]
      simp

/-- Keywords are added to a plain group and to a named one alike. -/
theorem extendAll?_keywords {kind : List Text → OpenKind}
    (hkind : ∀ keywords k, (kind keywords).extend? (.keyword k) = some (kind (keywords ++ [k])))
    (keywords : List Text) {ks : List Text} (h : ∀ k ∈ ks, ReadsAs k (.keyword k)) :
    extendAll? (kind keywords) ks = some (kind (keywords ++ ks)) := by
  have hall := extendAll?_map keywords fun k hk keywords =>
    (congrArg (kind keywords).extend? (h k hk).ofContent_eq).trans (hkind keywords k)
  rwa [List.map_id'] at hall

theorem extendAll?_aliases (items : List Alias) {as : List Alias}
    (h : ∀ a ∈ as, ReadsAs a.line (.arrow a.pattern a.target)) :
    extendAll? (.aliases items) (as.map Alias.line) = some (.aliases (items ++ as)) :=
  extendAll?_map items fun a ha items => congrArg (aliases items).extend? (h a ha).ofContent_eq

end OpenKind

namespace GroupKind

/-- The first line of a group opens it and the other lines join it. -/
theorem exists_lines_of_readable {kind : GroupKind} (h : kind.Readable) :
    ∃ first rest opening, kind.lines = first :: rest ∧
      OpenKind.ofClass? (LineClass.ofContent first) = some opening ∧
      opening.extendAll? rest = some kind.toOpen ∧
      ∀ above : GroupKind, above.OpensBelow kind →
        above.toOpen.extend? (LineClass.ofContent first) = none := by
  cases kind with
  | plain keywords =>
      obtain ⟨hne, hkeywords⟩ := h
      obtain ⟨k, ks, rfl⟩ := List.exists_cons_of_ne_nil hne
      have hk := (hkeywords k (by simp)).ofContent_eq
      refine ⟨k, ks, .plain [k], rfl, by rw [hk]; rfl, ?_, ?_⟩
      · exact OpenKind.extendAll?_keywords (fun _ _ => rfl) [k]
          fun k' hk' => hkeywords k' (by simp [hk'])
      · intro above hopens
        rw [hk]
        cases above <;> simp_all [OpensBelow, isAliases, toOpen, OpenKind.extend?]
  | named name keywords =>
      obtain ⟨hname, hkeywords⟩ := h
      refine ⟨_, keywords, .named name [], rfl, ?_, ?_, ?_⟩
      · rw [List.cons_append, hname.ofContent_eq]
        rfl
      · exact OpenKind.extendAll?_keywords (fun _ _ => rfl) [] hkeywords
      · intro above hopens
        rw [List.cons_append, hname.ofContent_eq]
        cases above <;> rfl
  | single item =>
      have hitem := ReadsAs.ofContent_eq h
      refine ⟨item.line, [], .aliases [item], rfl, by rw [hitem]; rfl, rfl, ?_⟩
      intro above hopens
      rw [hitem]
      cases above <;> simp_all [OpensBelow, isAliases, toOpen, OpenKind.extend?]
  | cluster items =>
      obtain ⟨hlength, hitems⟩ := h
      obtain ⟨item, rest, rfl⟩ := List.exists_cons_of_length_pos (Nat.lt_of_succ_lt hlength)
      have hitem := (hitems item (by simp)).ofContent_eq
      refine ⟨item.line, rest.map Alias.line, .aliases [item], rfl, by rw [hitem]; rfl, ?_, ?_⟩
      · exact OpenKind.extendAll?_aliases [item] fun a ha => hitems a (by simp [ha])
      · intro above hopens
        rw [hitem]
        cases above <;> simp_all [OpensBelow, isAliases, toOpen, OpenKind.extend?]

end GroupKind

namespace Assembly

/-! ## Reading a group and its comments -/

section Reading

variable {a : Assembly}

theorem enter_of_opened (hopened : a.opened = some .wordGroups) (hafter : a.afterSentinel = false) :
    a.enter = a := by
  cases a
  simp_all [enter]

theorem read_extendAll {g : OpenGroup} {kind : OpenKind} {lines : List Text}
    (hopened : a.opened = some .wordGroups) (hafter : a.afterSentinel = false)
    (hleaf : a.leaf = some g) (hlines : g.kind.extendAll? lines = some kind) :
    a.read lines = { a with leaf := some { g with kind } } := by
  induction lines generalizing a g with
  | nil =>
      obtain rfl : g.kind = kind := by simpa [OpenKind.extendAll?] using hlines
      cases a
      simp_all
  | cons line lines ih =>
      rw [OpenKind.extendAll?, List.foldlM_cons] at hlines
      obtain ⟨kind', hkind', hrest⟩ := Option.bind_eq_some_iff.mp hlines
      rw [read_cons, pushContent_extend (by simp [hopened]) hleaf hkind',
        enter_of_opened hopened hafter]
      exact ih (g := { g with kind := kind' }) hopened hafter rfl hrest

/-- The lines of a group open it and leave it open. -/
theorem read_kind {kind : GroupKind} (hopened : a.opened = some .wordGroups)
    (hkind : kind.Readable)
    (hleaf : ∀ g ∈ a.leaf, ∃ above : GroupKind, g.kind = above.toOpen ∧ above.OpensBelow kind) :
    a.read kind.lines = a.closeLeaf.begin ⟨0, a.pending, kind.toOpen⟩ := by
  obtain ⟨first, rest, opening, hlines, hfirst, hrest, hbelow⟩ :=
    GroupKind.exists_lines_of_readable hkind
  have hopens : ∀ g ∈ a.leaf, g.kind.extend? (LineClass.ofContent first) = none := by
    intro g hg
    obtain ⟨above, habove, hopens⟩ := hleaf g hg
    rw [habove]
    exact hbelow above hopens
  have hopened' : (a.closeLeaf.begin ⟨0, a.pending, opening⟩).opened = some .wordGroups := by
    simp [begin, enter, hopened]
  rw [hlines, read_cons, pushContent_open (by simp [hopened]) hfirst hopens]
  exact read_extendAll (g := ⟨0, a.pending, opening⟩) hopened' rfl rfl hrest

theorem ne_nil_of_readsAs_comment {c : Text} (h : ReadsAs c (.comment c)) : c ≠ [] := by
  rintro rfl
  exact absurd h.ofContent_eq (by decide)

/-- Comments and blank lines below a comment wait as they are, and a blank line
ends the run. -/
theorem read_notes {cs : List Text} (hopened : a.opened = some .wordGroups)
    (hafter : a.afterSentinel = false) (hleaf : a.leaf = none) (hgap : a.gap = 0)
    (hpending : a.pending ≠ []) (hcs : ∀ c ∈ cs, IsNote c) :
    a.read cs = (if [] ∈ cs then a.flushRun else a).waiting (a.pending ++ cs) 0 := by
  induction cs generalizing a with
  | nil =>
      cases a
      simp_all [waiting]
  | cons c cs ih =>
      have hrest : ∀ d ∈ cs, IsNote d := fun d hd => hcs d (by simp [hd])
      rcases hcs c (by simp) with rfl | hc
      · have hblank : a.pushContent [] = a.flushRun.waiting (a.pending ++ [[]]) 0 := by
          rw [pushContent_blank (by decide), pushBlank_of_pending_ne_nil hopened hpending,
            closeLeaf_of_leaf_eq_none hleaf, hgap]
        have hread := ih (a := a.flushRun.waiting (a.pending ++ [[]]) 0) hopened rfl hleaf rfl
          (by simp [waiting]) hrest
        rw [read_cons, hblank, hread, flushRun_of_run_eq_nil rfl]
        simp [waiting]
      · have hcomment : a.pushContent c = a.waiting (a.pending ++ [c]) 0 := by
          rw [pushContent_comment hc.ofContent_eq, pushComment_of_opened hafter hopened,
            closeLeaf_of_leaf_eq_none hleaf, hgap]
          simp
        have hne : ¬[] = c := fun h => ne_nil_of_readsAs_comment hc h.symm
        have hread := ih (a := a.waiting (a.pending ++ [c]) 0) hopened rfl hleaf rfl
          (by simp [waiting]) hrest
        rw [read_cons, hcomment, hread]
        by_cases hblank : [] ∈ cs
        · simp [hblank, waiting, flushRun]
        · simp [hblank, hne, waiting]

/-- Comments below a group wait as they are, with the blank lines above the
first one. -/
theorem read_comments {cs : List Text} (hopened : a.opened = some .wordGroups)
    (hafter : a.afterSentinel = false) (hpending : a.pending = [])
    (hgroups : a.closeLeaf.hasGroups = true) (hcs : ∀ c ∈ cs, IsNote c)
    (hne : ∃ c ∈ cs, c ≠ []) :
    a.read cs = (if [] ∈ cs then a.closeLeaf.flushRun else a.closeLeaf).waiting
      (List.replicate a.gap [] ++ cs) 0 := by
  induction cs generalizing a with
  | nil => simp at hne
  | cons c cs ih =>
      have hrest : ∀ d ∈ cs, IsNote d := fun d hd => hcs d (by simp [hd])
      rcases hcs c (by simp) with rfl | hc
      · have hblank : a.pushContent [] = a.closeLeaf.flushRun.waiting [] (a.gap + 1) := by
          rw [pushContent_blank (by decide), pushBlank_of_pending_eq_nil hopened hpending]
        have hclosed : (a.closeLeaf.flushRun.waiting [] (a.gap + 1)).closeLeaf =
            a.closeLeaf.flushRun.waiting [] (a.gap + 1) :=
          closeLeaf_of_leaf_eq_none (leaf_closeLeaf a)
        have hread := ih (a := a.closeLeaf.flushRun.waiting [] (a.gap + 1))
          ((opened_closeLeaf a).trans hopened) rfl rfl
          (by rw [hclosed]; exact (hasGroups_flushRun a.closeLeaf).trans hgroups) hrest
          (by simpa using hne)
        rw [read_cons, hblank, hread, hclosed, flushRun_of_run_eq_nil rfl]
        simp [waiting, List.replicate_succ']
      · have hcomment : a.pushContent c =
            a.closeLeaf.waiting (List.replicate a.gap [] ++ [c]) 0 := by
          rw [pushContent_comment hc.ofContent_eq, pushComment_of_opened hafter hopened, hgroups,
            hpending]
          simp
        have hne : ¬[] = c := fun h => ne_nil_of_readsAs_comment hc h.symm
        have hread := read_notes (a := a.closeLeaf.waiting (List.replicate a.gap [] ++ [c]) 0)
          ((opened_closeLeaf a).trans hopened) rfl (leaf_closeLeaf a) rfl (by simp [waiting]) hrest
        rw [read_cons, hcomment, hread]
        by_cases hblank : [] ∈ cs
        · simp [hblank, waiting, flushRun]
        · simp [hblank, hne, waiting]

end Reading

/-! ## Places -/

/-- Below the last group of a run, in a list that has the words `w` and some
earlier runs. -/
def inRun (w : List Text) (done : List (List Group)) (run : List Group) (last : Group) : Assembly :=
  { opened := some .wordGroups
    leaf := some ⟨0, last.comments, last.kind.toOpen⟩
    pending := []
    gap := 0
    afterSentinel := false
    run
    nextCluster := done.foldl Group.nextCluster 0
    list := ⟨w, Group.numberRuns 0 done, []⟩ }

def belowRun (w : List Text) (done : List (List Group)) (run : List Group) : Assembly :=
  { opened := some .wordGroups
    leaf := none
    pending := []
    gap := 0
    afterSentinel := false
    run
    nextCluster := done.foldl Group.nextCluster 0
    list := ⟨w, Group.numberRuns 0 done, []⟩ }

/-- Below a blank line that ended the last run. -/
def between (w : List Text) (done : List (List Group)) : Assembly :=
  { opened := some .wordGroups
    leaf := none
    pending := []
    gap := 1
    afterSentinel := false
    run := []
    nextCluster := done.foldl Group.nextCluster 0
    list := ⟨w, Group.numberRuns 0 done, []⟩ }

section Places

variable (w : List Text) (done : List (List Group)) (run : List Group) {last g : Group}

theorem closeLeaf_inRun (hlast : last.Readable) (hfresh : last.Fresh) :
    (inRun w done run last).closeLeaf = belowRun w done (run ++ [last]) := by
  obtain ⟨kind, start, comments, related⟩ := last
  obtain ⟨rfl, rfl⟩ : start = 0 ∧ related = none := hfresh
  simp [closeLeaf, inRun, belowRun, GroupKind.close_toOpen hlast.kind]

theorem hasGroups_belowRun : (belowRun w done (run ++ [last])).hasGroups = true := by
  simp [hasGroups, belowRun]

theorem flushRun_closeLeaf_inRun (hlast : last.Readable) (hfresh : last.Fresh) (pending : List Text)
    (gap : Nat) :
    (inRun w done run last).closeLeaf.flushRun.waiting pending gap =
      (between w (done ++ [run ++ [last]])).waiting pending gap := by
  rw [closeLeaf_inRun w done run hlast hfresh]
  simp [flushRun, waiting, belowRun, between, Group.numberRuns_concat, Group.nextCluster]

theorem read_follows (hlast : last.Readable) (hfresh : last.Fresh) (hg : g.Readable)
    (hfollows : last.Follows g) :
    (inRun w done run last).read (g.comments ++ g.kind.lines) =
      inRun w done (run ++ [last]) g := by
  have hclosed := closeLeaf_inRun w done run hlast hfresh
  rw [read_append]
  rcases hfollows with ⟨hnone, hopens⟩ | ⟨hsome, hblank⟩
  · have hleaf : ∀ leaf ∈ (inRun w done run last).leaf,
        ∃ above : GroupKind, leaf.kind = above.toOpen ∧ above.OpensBelow g.kind := by
      intro leaf hleaf
      obtain rfl : ⟨0, last.comments, last.kind.toOpen⟩ = leaf := by simpa [inRun] using hleaf
      exact ⟨last.kind, rfl, hopens⟩
    rw [hnone, read_nil, read_kind rfl hg.kind hleaf, hclosed]
    simp [begin, enter, inRun, belowRun, hnone]
  · obtain ⟨c, cs, hcomments⟩ := List.exists_cons_of_ne_nil hsome
    have hne : ∃ c ∈ g.comments, c ≠ [] := by
      refine ⟨c, by simp [hcomments], ?_⟩
      rintro rfl
      exact hblank (by simp [hcomments])
    have hgroups : (inRun w done run last).closeLeaf.hasGroups = true := by
      rw [hclosed, hasGroups_belowRun]
    have hread := read_comments (a := inRun w done run last) rfl rfl rfl hgroups hg.comments hne
    rw [if_neg hblank, hclosed] at hread
    rw [hread, read_kind rfl hg.kind (by simp [waiting, belowRun]), closeLeaf_of_leaf_eq_none rfl]
    rfl

theorem read_startsRun (hlast : last.Readable) (hfresh : last.Fresh) (hg : g.Readable)
    (hstarts : g.StartsRun) :
    (inRun w done run last).read (Group.blankAbove (some g) ++ (g.comments ++ g.kind.lines)) =
      inRun w (done ++ [run ++ [last]]) [] g := by
  have hflush := flushRun_closeLeaf_inRun w done run hlast hfresh
  -- Nothing is open below the comments, so the lines of the group open it.
  have hbegin : ∀ pending gap, pending = g.comments →
      ((between w (done ++ [run ++ [last]])).waiting pending gap).read g.kind.lines =
        inRun w (done ++ [run ++ [last]]) [] g := by
    rintro pending gap rfl
    rw [read_kind rfl hg.kind (by simp [waiting, between]), closeLeaf_of_leaf_eq_none rfl]
    rfl
  rw [read_append, read_append]
  rcases hstarts with hnone | ⟨hblank, hne⟩
  · have habove : Group.blankAbove (some g) = [[]] := by simp [Group.blankAbove, hnone]
    have hread : (inRun w done run last).read [[]] =
        (between w (done ++ [run ++ [last]])).waiting [] 1 := by
      rw [← hflush]
      exact pushBlank_of_pending_eq_nil (a := inRun w done run last) rfl rfl
    rw [habove, hread, hnone, read_nil]
    exact hbegin [] 1 hnone.symm
  · have habove : Group.blankAbove (some g) = [] := by
      obtain ⟨c, hc, -⟩ := hne
      have hcomments : g.comments ≠ [] := List.ne_nil_of_mem hc
      simp [Group.blankAbove, hcomments]
    have hgroups : (inRun w done run last).closeLeaf.hasGroups = true := by
      rw [closeLeaf_inRun w done run hlast hfresh, hasGroups_belowRun]
    have hread := read_comments (a := inRun w done run last) rfl rfl rfl hgroups hg.comments hne
    rw [if_pos hblank, hflush] at hread
    rw [habove, read_nil, hread]
    exact hbegin _ 0 rfl

theorem read_startsList (hg : g.Readable) (hstarts : g.StartsList) :
    (between w []).read (g.comments ++ g.kind.lines) = inRun w [] [] g := by
  have hbegin : ∀ pending gap, pending = g.comments →
      ((between w []).waiting pending gap).read g.kind.lines = inRun w [] [] g := by
    rintro pending gap rfl
    rw [read_kind rfl hg.kind (by simp [waiting, between]), closeLeaf_of_leaf_eq_none rfl]
    rfl
  rw [read_append]
  cases hcomments : g.comments with
  | nil => exact hbegin [] 1 hcomments.symm
  | cons c cs =>
      have hnotes := hg.comments
      rw [hcomments] at hnotes
      have hc : ReadsAs c (.comment c) := by
        rcases hnotes c (by simp) with rfl | hc
        · exact absurd (by simp [hcomments]) hstarts
        · exact hc
      have hcomment : (between w []).pushContent c = (between w []).waiting [c] 0 := by
        rw [pushContent_comment hc.ofContent_eq, pushComment_of_opened rfl rfl]
        rfl
      have hrest : ∀ d ∈ cs, IsNote d := fun d hd => hnotes d (by simp [hd])
      have hread := read_notes (a := (between w []).waiting [c] 0) rfl rfl rfl rfl
        (by simp [waiting]) hrest
      rw [flushRun_of_run_eq_nil rfl, ite_self] at hread
      rw [read_cons, hcomment, hread]
      exact hbegin _ 0 hcomments.symm

/-! ## Reading runs -/

theorem read_runLines {gs : List Group} (hchain : (last :: gs).IsChain Group.Follows)
    (hreadable : ∀ g ∈ last :: gs, g.Readable) (hfresh : ∀ g ∈ last :: gs, g.Fresh) :
    ∃ run' last', run' ++ [last'] = run ++ last :: gs ∧ last'.Readable ∧ last'.Fresh ∧
      (inRun w done run last).read (Group.runLines gs) = inRun w done run' last' := by
  induction gs generalizing run last with
  | nil =>
      exact ⟨run, last, rfl, hreadable last (by simp), hfresh last (by simp), rfl⟩
  | cons g gs ih =>
      obtain ⟨hfollows, htail⟩ := List.isChain_cons_cons.mp hchain
      obtain ⟨run', last', hrun, hlast, hlast', hread⟩ := ih (run ++ [last]) htail
        (fun h hh => hreadable h (by simp [hh])) (fun h hh => hfresh h (by simp [hh]))
      have hg := read_follows w done run (hreadable last (by simp))
        (hfresh last (by simp)) (hreadable g (by simp)) hfollows
      refine ⟨run', last', by simp [hrun], hlast, hlast', ?_⟩
      rw [Group.runLines, List.flatMap_cons, read_append, hg]
      exact hread

theorem read_below_runs {first : List Group} {runs : List (List Group)} (hlast : last.Readable)
    (hfresh : last.Fresh) (hruns : ∀ r ∈ runs, Group.IsRun r)
    (hstarts : (first :: runs).IsChain fun _ r => ∀ g ∈ r.head?, g.StartsRun) :
    (inRun w done run last).read
        (Group.blankAbove runs.flatten.head? ++ Group.runsLines runs) =
      between w (done ++ (run ++ [last]) :: runs) := by
  induction runs generalizing done run last first with
  | nil =>
      have hblank := pushBlank_of_pending_eq_nil (a := inRun w done run last) rfl rfl
      have hflush := flushRun_closeLeaf_inRun w done run hlast hfresh [] 1
      exact hblank.trans hflush
  | cons r runs ih =>
      obtain ⟨hr, hstarts⟩ := List.isChain_cons_cons.mp hstarts
      have hrun := hruns r (by simp)
      obtain ⟨g, gs, rfl⟩ := List.exists_cons_of_ne_nil hrun.ne_nil
      have hg := read_startsRun w done run hlast hfresh
        (hrun.readable g (by simp)) (hr g rfl)
      obtain ⟨run', last', hsame, hlast', hfresh', hread⟩ := read_runLines w
        (done ++ [run ++ [last]]) [] hrun.follows hrun.readable hrun.fresh
      have hrest := ih (done ++ [run ++ [last]]) run' hlast' hfresh'
        (fun r hr => hruns r (by simp [hr])) hstarts
      have hlines : Group.blankAbove ((g :: gs) :: runs).flatten.head? ++
          Group.runsLines ((g :: gs) :: runs) =
          (Group.blankAbove (some g) ++ (g.comments ++ g.kind.lines)) ++ (Group.runLines gs ++
            (Group.blankAbove runs.flatten.head? ++ Group.runsLines runs)) := by
        simp [Group.runsLines, Group.runLines]
      rw [hlines, read_append, hg, read_append, hread, hrest, hsame]
      simp

theorem read_runsLines {runs : List (List Group)} (h : Group.Canonical runs) :
    (between w []).read (Group.runsLines runs) = between w runs := by
  cases runs with
  | nil => rfl
  | cons r runs =>
      have hrun := h.isRun r (by simp)
      obtain ⟨g, gs, rfl⟩ := List.exists_cons_of_ne_nil hrun.ne_nil
      have hg := read_startsList w (hrun.readable g (by simp)) (h.startsList _ rfl g rfl)
      obtain ⟨run', last', hsame, hlast, hfresh, hread⟩ :=
        read_runLines w [] [] hrun.follows hrun.readable hrun.fresh
      have hrest := read_below_runs w [] run' hlast hfresh
        (fun r hr => h.isRun r (by simp [hr])) h.startsRun
      have hlines : Group.runsLines ((g :: gs) :: runs) =
          (g.comments ++ g.kind.lines) ++ (Group.runLines gs ++
            (Group.blankAbove runs.flatten.head? ++ Group.runsLines runs)) := by
        simp [Group.runsLines, Group.runLines]
      rw [hlines, read_append, hg, read_append, hread, hrest, hsame]
      simp

end Places

end Assembly

/-- The comments that a list can have behind its groups when it was read from a
text. -/
structure IsTrailing (runs : List (List Group)) (trailing : List Text) : Prop where
  notes : ∀ c ∈ trailing, IsNote c
  of_nil : runs = [] → trailing.head? ≠ some []
  of_ne_nil : runs ≠ [] → trailing = [] ∨ ∃ c ∈ trailing, c ≠ []

namespace Assembly

theorem finish_between (w : List Text) (runs : List (List Group)) (pending : List Text)
    (gap : Nat) :
    ((between w runs).waiting pending gap).finish =
      ⟨w, Group.numberRuns 0 runs,
        if Group.numberRuns 0 runs ≠ [] ∧ pending.head? = some [] then pending.tail
        else pending⟩ := by
  rw [finish, closeLeaf_of_leaf_eq_none rfl, flushRun_of_run_eq_nil rfl]
  simp [between, waiting]

theorem numberRuns_ne_nil {runs : List (List Group)} (hruns : ∀ run ∈ runs, Group.IsRun run)
    (hne : runs ≠ []) : Group.numberRuns 0 runs ≠ [] := by
  obtain ⟨run, rest, rfl⟩ := List.exists_cons_of_ne_nil hne
  have hrun := (hruns run (by simp)).ne_nil
  have hempty := isEmpty_numberRun 0 run
  intro hnil
  rw [Group.numberRuns, List.append_eq_nil_iff] at hnil
  rw [hnil.1] at hempty
  simp [hrun] at hempty

theorem finish_read_trailing {w : List Text} {runs : List (List Group)} {trailing : List Text}
    (hruns : ∀ run ∈ runs, Group.IsRun run) (h : IsTrailing runs trailing) :
    ((between w runs).read trailing).finish = ⟨w, Group.numberRuns 0 runs, trailing⟩ := by
  by_cases hnone : trailing = []
  · have hread : (between w runs).read trailing = (between w runs).waiting [] 1 := by
      rw [hnone]
      rfl
    rw [hread, finish_between, hnone]
    simp
  · by_cases hempty : runs = []
    · -- Without groups the first line is a comment, and all of them wait as they are.
      obtain ⟨c, cs, rfl⟩ := List.exists_cons_of_ne_nil hnone
      have hc : ReadsAs c (.comment c) := by
        rcases h.notes c (by simp) with rfl | hc
        · exact absurd rfl (h.of_nil hempty)
        · exact hc
      have hcomment : (between w runs).pushContent c = (between w runs).waiting [c] 0 := by
        rw [pushContent_comment hc.ofContent_eq, pushComment_of_opened rfl rfl, hempty]
        rfl
      have hrest : ∀ d ∈ cs, IsNote d := fun d hd => h.notes d (by simp [hd])
      have hread := read_notes (a := (between w runs).waiting [c] 0) rfl rfl rfl rfl
        (by simp [waiting]) hrest
      rw [flushRun_of_run_eq_nil rfl, ite_self] at hread
      rw [read_cons, hcomment, hread]
      refine (finish_between w runs (c :: cs) 0).trans ?_
      simp [hempty, Group.numberRuns]
    · -- Below the groups the blank line above the comments is added to them, and taken off again.
      have hgroups := numberRuns_ne_nil hruns hempty
      have hne : ∃ c ∈ trailing, c ≠ [] := (h.of_ne_nil hempty).resolve_left hnone
      have hhas : (between w runs).closeLeaf.hasGroups = true := by
        simp [closeLeaf_of_leaf_eq_none, between, hasGroups, hgroups]
      have hread := read_comments (a := between w runs) rfl rfl rfl hhas h.notes hne
      rw [closeLeaf_of_leaf_eq_none rfl, flushRun_of_run_eq_nil rfl, ite_self] at hread
      rw [hread]
      refine (finish_between w runs ([] :: trailing) 0).trans ?_
      simp [hgroups]

end Assembly

end Marginalia.Keywords
