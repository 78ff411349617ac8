import Marginalia.Proofs.Keywords.Parted

/-!
# New neighbours

When a group leaves its place, the groups above and below it become neighbours;
every other pair of neighbours stays what it was, or is parted by the group that
was moved between.  Numbering the runs anew keeps two neighbours in one run
exactly when they were in one run before, so two neighbours merge in the edited
list exactly when they fuse.
-/

namespace Marginalia.Keywords

namespace Group

/-! ## Numbers given anew -/

/-- The first of some groups, numbered anew: the next one continues its run if
it is in that run. -/
theorem exists_renumberFrom_cons (previous : Option Nat) (before : Nat) (g : Group)
    (gs : List Group) :
    ∃ g₁ previous₁ before₁,
      renumberFrom previous before (g :: gs) = g₁ :: renumberFrom previous₁ before₁ gs ∧
        g₁.kind = g.kind ∧ g₁.comments = g.comments ∧
        ∀ next ∈ gs.head?, (g₁.related.map (·.continues)).getD false = true ↔ g.SameRun next := by
  rw [renumberFrom]
  cases hrelated : g.related with
  | none =>
      refine ⟨g, none, 0, rfl, rfl, rfl, ?_⟩
      intro next _
      simp [SameRun, hrelated]
  | some r =>
      dsimp only
      refine ⟨_, _, _, rfl, rfl, rfl, ?_⟩
      intro next hnext
      obtain ⟨rest, rfl⟩ := List.head?_eq_some_iff.mp hnext
      have hsame : g.SameRun next ↔ next.inCluster r.cluster = true := by
        simp [SameRun, hrelated]
      rw [hsame]
      generalize (if previous = some r.cluster then before else 0) = n
      by_cases hin : next.inCluster r.cluster = true
      · have htotal : 1 < n + 1 + ((rest.takeWhile (inCluster r.cluster)).length + 1) := by omega
        simp [hin, htotal, Related.continues]
      · by_cases hn : 0 < n <;> simp [hin, hn, Related.continues]

/-- Two neighbours merge after the runs were numbered anew exactly when they
fuse. -/
theorem isChain_renumber_iff {gs : List Group} :
    ((renumber gs).IsChain fun above below => ¬above.Merges below) ↔
      gs.IsChain fun above below => ¬above.Fuses below := by
  have hfrom : ∀ (gs : List Group) (previous : Option Nat) (before : Nat),
      ((renumberFrom previous before gs).IsChain fun above below => ¬above.Merges below) ↔
        gs.IsChain fun above below => ¬above.Fuses below := by
    intro gs
    induction gs with
    | nil => exact fun _ _ => iff_of_true List.isChain_nil List.isChain_nil
    | cons g gs ih =>
        intro previous before
        obtain ⟨g₁, previous₁, before₁, hfirst, hkind₁, -, hcontinues⟩ :=
          exists_renumberFrom_cons previous before g gs
        rw [hfirst]
        cases gs with
        | nil => exact iff_of_true (List.isChain_singleton _) (List.isChain_singleton _)
        | cons next gs =>
            have hrest := ih previous₁ before₁
            obtain ⟨g₂, previous₂, before₂, hsecond, hkind₂, hcomments₂, -⟩ :=
              exists_renumberFrom_cons previous₁ before₁ next gs
            rw [hsecond] at hrest ⊢
            have hmerges : g₁.Merges g₂ ↔ g.Fuses next := by
              rw [Merges, Fuses, hkind₁, hkind₂, hcomments₂, ← hcontinues next rfl]
              refine and_congr_right fun hcomments => and_congr_left fun _ => ?_
              simp [blankAfter, hcomments₂, hcomments]
            rw [List.isChain_cons_cons, List.isChain_cons_cons, hmerges, hrest]
  exact hfrom gs none 0

/-! ## Neighbours around a place -/

/-- Without the group at `index` the groups above and below it fuse. -/
def FuseAround (gs : List Group) (index : Nat) : Prop :=
  ∃ above ∈ (gs.take index).getLast?, ∃ below ∈ (gs.drop (index + 1)).head?, above.Fuses below

instance (gs : List Group) (index : Nat) : Decidable (FuseAround gs index) :=
  inferInstanceAs (Decidable (∃ above ∈ (gs.take index).getLast?,
    ∃ below ∈ (gs.drop (index + 1)).head?, above.Fuses below))

theorem isChain_append_iff_not {α : Type} {R : α → α → Prop} {xs ys : List α}
    (hxs : xs.IsChain fun a b => ¬R a b) (hys : ys.IsChain fun a b => ¬R a b) :
    ((xs ++ ys).IsChain fun a b => ¬R a b) ↔ ¬∃ a ∈ xs.getLast?, ∃ b ∈ ys.head?, R a b := by
  simp only [List.isChain_append, hxs, hys, true_and, not_exists, not_and]

variable {gs : List Group} {index target : Nat} {removed : Group}

/-- The blank line that is inherited changes nothing below the group that
inherits it. -/
theorem isChain_inheritBlank {R : Group → Group → Prop}
    (hR : ∀ above below cs, R above below → R { above with comments := cs } below)
    (h : gs.IsChain R) : (removed.inheritBlank gs).IsChain R := by
  cases gs with
  | nil => exact h
  | cons g gs =>
      rw [inheritBlank]
      split
      · obtain ⟨hbelow, hgs⟩ := List.isChain_cons.mp h
        exact List.isChain_cons.mpr ⟨fun below hmem => hR g below [[]] (hbelow below hmem), hgs⟩
      · exact h

/-- The blank line that is inherited keeps the new neighbours apart. -/
theorem exists_fuses_inheritBlank_iff {above : Group} :
    (∃ below ∈ (removed.inheritBlank gs).head?, above.Fuses below) ↔
      removed.comments.head? ≠ some [] ∧ ∃ below ∈ gs.head?, above.Fuses below := by
  cases gs with
  | nil => simp [inheritBlank]
  | cons g gs =>
      rw [inheritBlank]
      split
      · next hblank => simp [hblank.2, Fuses]
      · next hblank =>
          have hfuses : above.Fuses g → removed.comments.head? ≠ some [] :=
            fun hfuses hhead => hblank ⟨by simp [hfuses.1], hhead⟩
          simpa using hfuses

theorem isChain_removed_iff (h : gs.IsChain fun above below => ¬above.Fuses below) :
    ((gs.take index ++ removed.inheritBlank (gs.drop (index + 1))).IsChain
        fun above below => ¬above.Fuses below) ↔
      ¬(removed.comments.head? ≠ some [] ∧ FuseAround gs index) := by
  rw [isChain_append_iff_not (h.take index)
    (isChain_inheritBlank (fun _ _ _ hnot => hnot) (h.drop (index + 1)))]
  simp only [exists_fuses_inheritBlank_iff, FuseAround]
  apply not_congr
  constructor
  · rintro ⟨above, habove, hhead, hbelow⟩
    exact ⟨hhead, above, habove, hbelow⟩
  · rintro ⟨hhead, above, habove, hbelow⟩
    exact ⟨above, habove, hhead, hbelow⟩

theorem insertIdx_length_append {α : Type} (xs ys : List α) (a : α) :
    (xs ++ ys).insertIdx xs.length a = xs ++ a :: ys := by
  induction xs with
  | nil => rfl
  | cons x xs ih => simp [ih]

/-- When an element is put elsewhere, its old neighbours become neighbours, and
it gets new ones; every other pair stays as it was or is parted. -/
theorem isChain_insertIdx_eraseIdx_iff {α : Type} {R : α → α → Prop} {xs : List α} (x : α)
    {source target : Nat} (h : xs.IsChain R) (hsource : source < xs.length)
    (htarget : target < xs.length) (hne : source ≠ target) :
    ((xs.eraseIdx source).insertIdx target x).IsChain R ↔
      (∀ a ∈ (xs.take source).getLast?, ∀ b ∈ (xs.drop (source + 1)).head?, R a b) ∧
        (∀ a ∈ ((xs.eraseIdx source).take target).getLast?, R a x) ∧
          ∀ b ∈ ((xs.eraseIdx source).drop target).head?, R x b := by
  have hfront := h.take source
  have hback := h.drop (source + 1)
  have hlength : (xs.take source).length = source := List.length_take_of_le (Nat.le_of_lt hsource)
  rw [List.eraseIdx_eq_take_drop_succ]
  generalize xs.take source = front at hfront hlength ⊢
  generalize hrest : xs.drop (source + 1) = back at hback ⊢
  have hlengthBack : back.length = xs.length - (source + 1) := by rw [← hrest, List.length_drop]
  rcases Nat.lt_or_gt_of_ne hne with hless | hless
  · -- it is moved down, into the elements below its place
    obtain ⟨inner, outer, rfl, hinner⟩ : ∃ inner outer, back = inner ++ outer ∧
        (front ++ inner).length = target :=
      ⟨back.take (target - source), back.drop (target - source), (List.take_append_drop ..).symm, by
        rw [List.length_append, List.length_take, hlength]
        omega⟩
    have hne : inner ≠ [] := by
      rintro rfl
      rw [List.append_nil, hlength] at hinner
      omega
    obtain ⟨hinside, houter, -⟩ := List.isChain_append.mp hback
    rw [← List.append_assoc, ← hinner, insertIdx_length_append, List.take_left, List.drop_left,
      List.head?_append_of_ne_nil _ hne, List.isChain_append, List.isChain_append,
      List.isChain_cons]
    simp only [hfront, hinside, houter, true_and, and_true, List.head?_cons, Option.mem_def,
      Option.some.injEq, forall_eq']
    tauto
  · obtain ⟨outer, inner, rfl, houter⟩ : ∃ outer inner, front = outer ++ inner ∧
        outer.length = target :=
      ⟨front.take target, front.drop target, (List.take_append_drop ..).symm, by
        rw [List.length_take, hlength]
        omega⟩
    have hne : inner ≠ [] := by
      rintro rfl
      rw [List.append_nil] at hlength
      omega
    obtain ⟨houtside, hinside, -⟩ := List.isChain_append.mp hfront
    rw [List.append_assoc, ← houter, insertIdx_length_append, List.take_left, List.drop_left,
      List.getLast?_append_of_ne_nil _ hne, List.isChain_append, List.isChain_cons,
      List.isChain_append, List.head?_append_of_ne_nil _ hne]
    simp only [houtside, hinside, hback, true_and, List.head?_cons, Option.mem_def,
      Option.some.injEq, forall_eq']
    tauto

/-- A group that belongs to no run fuses with none of its new neighbours. -/
theorem isChain_moved_iff (h : gs.IsChain fun above below => ¬above.Fuses below)
    {g : Group} (hg : g.related = none) (hindex : index < gs.length) (htarget : target < gs.length)
    (hne : index ≠ target) :
    (((gs.eraseIdx index).insertIdx target g).IsChain fun above below => ¬above.Fuses below) ↔
      ¬FuseAround gs index := by
  have habove : ∀ other : Group, ¬other.Fuses g := fun _ =>
    not_fuses_of_related_eq_none (Or.inr hg)
  have hbelow : ∀ other : Group, ¬g.Fuses other := fun _ =>
    not_fuses_of_related_eq_none (Or.inl hg)
  rw [isChain_insertIdx_eraseIdx_iff g h hindex htarget hne]
  simp [FuseAround, habove, hbelow]

end Group

/-! ## Edits -/

/-- The edit makes two groups neighbours that fuse.  Where a group is removed, a
blank line above it is kept and parts them. -/
def KeywordEdit.Fuses (l : KeywordList) : KeywordEdit → Prop
  | removeGroup index | removeAlias index _ =>
    (∀ removed ∈ l.groups[index]?, removed.comments.head? ≠ some []) ∧
      Group.FuseAround l.groups index
  | moveGroup source target => source ≠ target ∧ Group.FuseAround l.groups source
  | _ => False

namespace KeywordEdit

variable {l : KeywordList} {e : KeywordEdit} {index : Nat} {g : Group}

theorem Removes.fuses_iff (h : e.Removes index g.kind) (hg : l.groups[index]? = some g) :
    e.Fuses l ↔ g.comments.head? ≠ some [] ∧ Group.FuseAround l.groups index := by
  have hgroup : (removeGroup index).Fuses l ↔
      g.comments.head? ≠ some [] ∧ Group.FuseAround l.groups index := by
    simp [Fuses, hg]
  generalize g.kind = kind at h
  cases h with
  | group => exact hgroup
  | onlyAlias => exact hgroup

end KeywordEdit

namespace KeywordList

variable {l : KeywordList}

/-- Groups merge after a group was taken from its place exactly when its old
neighbours fuse. -/
theorem separate_run?_iff {t : Text} {e : KeywordEdit} (he : e.Displaces (ofText t))
    (hl : e.run? (ofText t) = some l) : l.Separate ↔ ¬e.Fuses (ofText t) := by
  have hchain := isChain_groups_ofText t
  have hfuses : (ofText t).groups.IsChain fun above below => ¬above.Fuses below :=
    hchain.imp fun _ _ h => h.1
  have hseparate : (ofText t).Separate := hchain.imp fun _ _ h => h.2
  cases edited_of_run? hl with
  | removed hg hremoves =>
      rw [hremoves.fuses_iff hg, Separate, Group.isChain_renumber_iff,
        Group.isChain_removed_iff hfuses]
  | @moved source target g hg htarget hne =>
      have hsource : source < (ofText t).groups.length := (List.getElem?_eq_some_iff.mp hg).1
      have hmoved : (KeywordEdit.moveGroup source target).Fuses (ofText t) ↔
          Group.FuseAround (ofText t).groups source := and_iff_right hne
      rw [hmoved, Separate, Group.isChain_renumber_iff,
        Group.isChain_moved_iff hfuses rfl hsource htarget hne]
  | stayed _ => exact iff_of_true hseparate fun hmoved => hmoved.1 rfl
  | reworded words => exact he.elim
  | inserted index kind _ => exact he.elim
  | recast hg hrecasts => exact (hrecasts.not_displaces hg he).elim

end KeywordList

end Marginalia.Keywords
