import Marginalia.Proofs.Store.Files
import Mathlib.Data.List.DropRight

/-!
# Making directories

The directory of a store may be missing before the first save.  Making it walks
along its names from the top and puts a directory wherever nothing stands.
Every file stays and no file is new, so all that making can change about a
document is whether names lead to it: names that go up, as in `x/../y`, lead
nowhere until `x` has been made.

Making a directory again changes nothing, whether or not it could be made.
-/

namespace Marginalia

namespace Path

/-- Where names lead to when a directory stands at each step. -/
def reached (here : Path) (names : List Text) : Path :=
  names.foldl step here

variable {here : Path} {names : List Text}

theorem prefix_reached (hup : ['.', '.'] ∉ names) : here <+: reached here names := by
  induction names generalizing here with
  | nil => exact List.prefix_refl here
  | cons name names ih =>
      obtain ⟨hname, hnames⟩ := not_or.mp (mt List.mem_cons.mpr hup)
      have hstep : here <+: here.step name := by
        unfold step
        split_ifs
        · exact List.prefix_refl here
        · next h => exact absurd h.symm hname
        · exact List.prefix_append here [name]
      exact hstep.trans (ih hnames)

theorem reached_dropPoints (here : Path) (names : List Text) :
    reached here (dropPoints names) = reached here names := by
  induction names using List.reverseRecOn with
  | nil => rfl
  | append_singleton names name ih =>
      rw [dropPoints_concat]
      split
      · next hpoint =>
          rw [ih, reached, reached, List.foldl_append, List.foldl_cons, List.foldl_nil, step,
            if_pos hpoint]
      · rfl

theorem dropPoints_dropPoints (names : List Text) :
    dropPoints (dropPoints names) = dropPoints names :=
  List.rdropWhile_idempotent _ _

theorem not_mem_dropPoints (hup : ['.', '.'] ∉ names) : ['.', '.'] ∉ dropPoints names :=
  fun h => hup ((List.rdropWhile_prefix _ names).subset h)

/-- Points are names that an entry can have, so any other name leads down. -/
theorem isProper_of_not_isName {name : Text} (h : ¬isName name = true) : IsProper name := by
  constructor
  · rintro rfl
    exact h (by decide)
  · rintro rfl
    exact h (by decide)

end Path

namespace FileTree

variable {tree made more : FileTree} {here p q d : Path} {names : List Text} {name : Text}
  {e : Entry} {fault : IoFault}

/-! ## Trees -/

/-- An entry can stand at a path: the top, or a name in a directory. -/
def Placeable (tree : FileTree) (p : Path) : Prop :=
  ∀ q name, p = q ++ [name] → tree.get? q = some .directory ∧ Path.isName name = true

/-- Every entry stands in a directory under a name. -/
def IsTree (tree : FileTree) : Prop :=
  ∀ p, tree.get? p ≠ none → tree.Placeable p

theorem exists_mem_of_get? (h : tree.get? p = some e) : (p, e) ∈ tree.entries := by
  obtain ⟨⟨q, e'⟩, hfind, rfl⟩ := Option.map_eq_some_iff.mp h
  have hq : q = p := by simpa using List.find?_some hfind
  exact hq ▸ List.mem_of_find?_eq_some hfind

theorem placeable_iff : tree.Placeable p ↔ ∀ name ∈ p.getLast?,
    tree.get? p.dropLast = some .directory ∧ Path.isName name = true := by
  constructor
  · intro h name hname
    obtain ⟨q, rfl⟩ := List.getLast?_eq_some_iff.mp hname
    rw [List.dropLast_concat]
    exact h q name rfl
  · rintro h q name rfl
    simpa using h name

instance (tree : FileTree) (p : Path) : Decidable (tree.Placeable p) :=
  decidable_of_iff _ placeable_iff.symm

theorem isTree_iff : tree.IsTree ↔
    ∀ e ∈ tree.entries, tree.get? e.1 ≠ none → tree.Placeable e.1 := by
  constructor
  · exact fun h e _ he => h e.1 he
  · intro h p hp
    obtain ⟨e, he⟩ := Option.ne_none_iff_exists'.mp hp
    exact h (p, e) (exists_mem_of_get? he) hp

instance (tree : FileTree) : Decidable tree.IsTree :=
  decidable_of_iff _ isTree_iff.symm

/-- The directories before a directory are there. -/
theorem IsTree.of_prefix (h : tree.IsTree) (hd : tree.get? d = some .directory) (hp : p <+: d) :
    tree.get? p = some .directory := by
  obtain ⟨names, rfl⟩ := hp
  induction names using List.reverseRecOn with
  | nil => rwa [List.append_nil] at hd
  | append_singleton names name ih =>
      have hsome : tree.get? (p ++ (names ++ [name])) ≠ none := by rw [hd]; rintro ⟨⟩
      exact ih (h _ hsome (p ++ names) name (List.append_assoc ..).symm).1

theorem follow?_eq_reached (h : tree.follow? here names = some p) :
    p = Path.reached here names := by
  induction names generalizing here with
  | nil => exact (Option.some.inj h).symm
  | cons name names ih =>
      rw [follow?] at h
      obtain ⟨-, hrest⟩ := Option.ite_none_right_eq_some.mp h
      exact ih hrest

theorem IsTree.follow?_eq (h : tree.IsTree) (hup : ['.', '.'] ∉ names)
    (hd : tree.get? (Path.reached here names) = some .directory) :
    tree.follow? here names = some (Path.reached here names) := by
  induction names generalizing here with
  | nil => rfl
  | cons name names ih =>
      rw [follow?, if_pos (h.of_prefix hd (Path.prefix_reached hup))]
      exact ih (List.not_mem_of_not_mem_cons hup) hd

/-- Names that do not go up lead to a directory as soon as it is there. -/
theorem IsTree.leadsTo (h : tree.IsTree) (hup : ['.', '.'] ∉ names)
    (hd : tree.get? (Path.reached [] names) = some .directory) :
    tree.LeadsTo names (Path.reached [] names) :=
  ⟨h.follow?_eq hup hd, hd⟩

/-! ## More directories -/

/-- All that `made` has changed in `tree` is that directories stand where
nothing stood. -/
def AddsDirectories (tree made : FileTree) : Prop :=
  ∀ q, made.get? q = tree.get? q ∨ tree.get? q = none ∧ made.get? q = some .directory

namespace AddsDirectories

theorem refl (tree : FileTree) : tree.AddsDirectories tree :=
  fun _ => Or.inl rfl

theorem trans (h : tree.AddsDirectories made) (h' : made.AddsDirectories more) :
    tree.AddsDirectories more := by
  intro q
  rcases h' q with hq' | ⟨hnone, hdirectory⟩
  · rw [hq']
    exact h q
  · refine Or.inr ⟨?_, hdirectory⟩
    rcases h q with hq | ⟨hq, -⟩
    · rw [← hq, hnone]
    · exact hq

theorem directory (h : tree.AddsDirectories made) (hq : tree.get? q = some .directory) :
    made.get? q = some .directory := by
  rcases h q with hsame | ⟨hnone, -⟩
  · rw [hsame, hq]
  · rw [hq] at hnone
    cases hnone

theorem eq_some_iff (h : tree.AddsDirectories made) (he : e ≠ .directory) :
    made.get? q = some e ↔ tree.get? q = some e := by
  rcases h q with hsame | ⟨hnone, hdirectory⟩
  · rw [hsame]
  · simp [hnone, hdirectory, he.symm]

theorem eq_none (h : tree.AddsDirectories made) (hq : made.get? q = none) :
    tree.get? q = none := by
  rcases h q with hsame | ⟨hnone, -⟩
  · rw [← hsame, hq]
  · exact hnone

end AddsDirectories

theorem get?_of_ensure? (h : tree.ensure? here = some made) :
    made.get? here = some .directory ∧ ∀ q ≠ here, made.get? q = tree.get? q := by
  unfold ensure? at h
  split at h
  · next hhere => cases h; exact ⟨hhere, fun _ _ => rfl⟩
  · cases h; exact ⟨get?_put_self .., fun _ hq => get?_put_of_ne tree _ hq⟩
  · cases h

theorem ensure?_of_directory (h : tree.get? here = some .directory) :
    tree.ensure? here = some tree := by
  rw [ensure?, h]

theorem addsDirectories_ensure? (h : tree.ensure? here = some made) :
    tree.AddsDirectories made := by
  intro q
  by_cases hq : q = here
  · obtain ⟨hhere, -⟩ := get?_of_ensure? h
    subst hq
    unfold ensure? at h
    split at h
    · next hthere => exact Or.inl (hhere.trans hthere.symm)
    · next hnone => exact Or.inr ⟨hnone, hhere⟩
    · cases h
  · exact Or.inl ((get?_of_ensure? h).2 q hq)

/-! ## Making the way to a directory -/

theorem addsDirectories_makeWay (tree : FileTree) (here : Path) (names : List Text) :
    tree.AddsDirectories (tree.makeWay here names).2 := by
  induction names generalizing tree here with
  | nil =>
      rw [makeWay]
      split
      · next hmade => exact addsDirectories_ensure? hmade
      · exact .refl tree
  | cons name names ih =>
      rw [makeWay]
      split
      · next hmade =>
          split
          · exact (addsDirectories_ensure? hmade).trans (ih _ _)
          · exact addsDirectories_ensure? hmade
      · exact .refl tree

/-- Making the way again makes nothing, and ends the same. -/
theorem makeWay_makeWay (tree : FileTree) (here : Path) (names : List Text) :
    (tree.makeWay here names).2.makeWay here names = tree.makeWay here names := by
  induction names generalizing tree here with
  | nil =>
      cases h : tree.ensure? here with
      | none => simp [makeWay, h]
      | some made => simp [makeWay, h, ensure?_of_directory (get?_of_ensure? h).1]
  | cons name names ih =>
      cases h : tree.ensure? here with
      | none => simp [makeWay, h]
      | some made =>
          have hhere := (get?_of_ensure? h).1
          by_cases hname : Path.isName name = true
          · have hagain : (made.makeWay (here.step name) names).2.ensure? here =
                some (made.makeWay (here.step name) names).2 :=
              ensure?_of_directory ((addsDirectories_makeWay _ _ _).directory hhere)
            simp only [makeWay, h, hname, if_true, hagain, ih]
          · simp [makeWay, h, hname, ensure?_of_directory hhere]

/-- Making the way puts nothing below its end. -/
theorem get?_makeWay_of_length_lt (hup : ['.', '.'] ∉ names)
    (hq : (Path.reached here names).length < q.length) :
    (tree.makeWay here names).2.get? q = tree.get? q := by
  have hne : ∀ {here : Path} {names : List Text}, ['.', '.'] ∉ names →
      (Path.reached here names).length < q.length → q ≠ here := by
    rintro here names hup hq rfl
    exact absurd (Path.prefix_reached hup).length_le (Nat.not_le.mpr hq)
  induction names generalizing tree here with
  | nil =>
      rw [makeWay]
      split
      · next h => exact (get?_of_ensure? h).2 q (hne hup hq)
      · rfl
  | cons name names ih =>
      rw [makeWay]
      split
      · next h =>
          have hmade := (get?_of_ensure? h).2 q (hne hup hq)
          split
          · rw [ih (List.not_mem_of_not_mem_cons hup) hq, hmade]
          · exact hmade
      · rfl

theorem Placeable.ensure? (h : tree.Placeable p) (hmade : tree.ensure? here = some made) :
    made.Placeable p := by
  intro q name hp
  obtain ⟨hq, hname⟩ := h q name hp
  exact ⟨(addsDirectories_ensure? hmade).directory hq, hname⟩

theorem IsTree.ensure? (h : tree.IsTree) (hhere : tree.Placeable here)
    (hmade : tree.ensure? here = some made) : made.IsTree := by
  intro p hp
  by_cases hph : p = here
  · rw [hph]
    exact hhere.ensure? hmade
  · rw [(get?_of_ensure? hmade).2 p hph] at hp
    exact (h p hp).ensure? hmade

/-- A step from a directory leads to where an entry can stand. -/
theorem IsTree.placeable_step (h : tree.IsTree) (hhere : tree.get? here = some .directory)
    (hname : Path.isName name = true) : tree.Placeable (here.step name) := by
  have hstays : ∀ {p : Path}, tree.get? p = some .directory → tree.Placeable p :=
    fun hp => h _ (by rw [hp]; rintro ⟨⟩)
  unfold Path.step
  split_ifs
  · exact hstays hhere
  · exact hstays (h.of_prefix hhere (List.dropLast_prefix here))
  · intro q other heq
    obtain ⟨rfl, hother⟩ := List.append_inj' heq rfl
    cases hother
    exact ⟨hhere, hname⟩

theorem leadsTo_of_makeWay (h : (tree.makeWay here names).1 = .ok ()) :
    (tree.makeWay here names).2.follow? here names = some (Path.reached here names) ∧
      (tree.makeWay here names).2.get? (Path.reached here names) = some .directory := by
  induction names generalizing tree here with
  | nil =>
      cases hmade : tree.ensure? here with
      | none => simp [makeWay, hmade] at h
      | some made =>
          simp only [makeWay, hmade]
          exact ⟨rfl, (get?_of_ensure? hmade).1⟩
  | cons name names ih =>
      cases hmade : tree.ensure? here with
      | none => simp [makeWay, hmade] at h
      | some made =>
          by_cases hname : Path.isName name = true
          · simp only [makeWay, hmade, hname, if_true] at h ⊢
            obtain ⟨hfollow, hend⟩ := ih h
            have hhere :=
              (addsDirectories_makeWay _ (here.step name) names).directory (get?_of_ensure? hmade).1
            rw [follow?, if_pos hhere]
            exact ⟨hfollow, hend⟩
          · simp [makeWay, hmade, hname] at h

/-- A way that could not be made leads to no directory. -/
theorem IsTree.get?_makeWay_ne_directory (h : tree.IsTree) (hhere : tree.Placeable here)
    (herror : (tree.makeWay here names).1 = .error fault)
    (hfollow : (tree.makeWay here names).2.follow? here names = some p) :
    (tree.makeWay here names).2.get? p ≠ some .directory := by
  induction names generalizing tree here with
  | nil =>
      cases hmade : tree.ensure? here with
      | some made => simp [makeWay, hmade] at herror
      | none =>
          simp only [makeWay, hmade] at hfollow ⊢
          cases hfollow
          intro hd
          rw [ensure?_of_directory hd] at hmade
          cases hmade
  | cons name names ih =>
      cases hmade : tree.ensure? here with
      | none =>
          simp only [makeWay, hmade, follow?] at hfollow
          obtain ⟨hd, -⟩ := Option.ite_none_right_eq_some.mp hfollow
          rw [ensure?_of_directory hd] at hmade
          cases hmade
      | some made =>
          have htree := h.ensure? hhere hmade
          by_cases hname : Path.isName name = true
          · simp only [makeWay, hmade, hname, if_true, follow?] at herror hfollow ⊢
            obtain ⟨-, hrest⟩ := Option.ite_none_right_eq_some.mp hfollow
            exact ih htree (htree.placeable_step (get?_of_ensure? hmade).1 hname) herror hrest
          · -- No entry has such a name, so the step leads to where nothing stands.
            have habsent : made.get? (here ++ [name]) = none := by
              by_contra hthere
              exact hname (htree _ hthere here name rfl).2
            simp only [makeWay, hmade, hname, follow?,
              Path.step_of_isProper (Path.isProper_of_not_isName hname)] at hfollow ⊢
            obtain ⟨-, hrest⟩ := Option.ite_none_right_eq_some.mp hfollow
            cases names with
            | nil =>
                cases hrest
                simp [habsent]
            | cons next names => simp [follow?, habsent] at hrest

/-! ## The directory of the store -/

theorem leadsTo_of_dropPoints (h : tree.LeadsTo (Path.dropPoints names) d) :
    tree.LeadsTo names d := by
  induction names using List.reverseRecOn with
  | nil => exact h
  | append_singleton names name ih =>
      rw [Path.dropPoints_concat] at h
      split at h
      · next hpoint =>
          have hnames := ih h
          refine ⟨?_, h.directory⟩
          rw [follow?_append, hnames.follow, Option.bind_some, follow?, if_pos h.directory,
            Path.step, if_pos hpoint]
          rfl
      · exact h

/-- A directory that was not there is made as a way from the top. -/
theorem makeDirectories_eq_makeWay (h : tree.find? (Path.dropPoints names) ≠ some .directory) :
    tree.makeDirectories (Path.dropPoints names) = tree.makeWay [] (Path.dropPoints names) := by
  rw [makeDirectories, if_neg h, if_pos (Path.dropPoints_dropPoints names)]

theorem addsDirectories_makeDirectories (tree : FileTree) (names : List Text) :
    tree.AddsDirectories (tree.makeDirectories (Path.dropPoints names)).2 := by
  by_cases hfind : tree.find? (Path.dropPoints names) = some .directory
  · rw [makeDirectories, if_pos hfind]
    exact .refl tree
  · rw [makeDirectories_eq_makeWay hfind]
    exact addsDirectories_makeWay tree [] _

theorem exists_leadsTo_of_makeDirectories
    (h : (tree.makeDirectories (Path.dropPoints names)).1 = .ok ()) :
    ∃ d, (tree.makeDirectories (Path.dropPoints names)).2.LeadsTo names d := by
  by_cases hfind : tree.find? (Path.dropPoints names) = some .directory
  · obtain ⟨d, hfollow, hd⟩ := Option.bind_eq_some_iff.mp hfind
    rw [makeDirectories, if_pos hfind]
    exact ⟨d, leadsTo_of_dropPoints ⟨hfollow, hd⟩⟩
  · rw [makeDirectories_eq_makeWay hfind] at h ⊢
    obtain ⟨hfollow, hd⟩ := leadsTo_of_makeWay h
    exact ⟨_, leadsTo_of_dropPoints ⟨hfollow, hd⟩⟩

/-- Making a directory again makes nothing, and ends the same. -/
theorem IsTree.makeDirectories_makeDirectories (h : tree.IsTree) (names : List Text) :
    (tree.makeDirectories (Path.dropPoints names)).2.makeDirectories (Path.dropPoints names) =
      tree.makeDirectories (Path.dropPoints names) := by
  rcases houtcome : tree.makeDirectories (Path.dropPoints names) with ⟨fault | _, made⟩
  · have hfind : tree.find? (Path.dropPoints names) ≠ some .directory := by
      intro hfind
      simp [makeDirectories, hfind] at houtcome
    have hway := makeDirectories_eq_makeWay hfind
    rw [houtcome] at hway
    have hmade : made.find? (Path.dropPoints names) ≠ some .directory := by
      intro hfind'
      obtain ⟨p, hfollow, hp⟩ := Option.bind_eq_some_iff.mp hfind'
      have htop : tree.Placeable [] := fun q name hq => by simp at hq
      have herror : (tree.makeWay [] (Path.dropPoints names)).1 = .error fault := by rw [← hway]
      exact h.get?_makeWay_ne_directory htop herror (by rwa [← hway]) (by rwa [← hway])
    have hagain := makeWay_makeWay tree [] (Path.dropPoints names)
    rw [← hway] at hagain
    rwa [makeDirectories_eq_makeWay hmade]
  · have hok : (tree.makeDirectories (Path.dropPoints names)).1 = .ok () := by rw [houtcome]
    obtain ⟨d, hd⟩ := exists_leadsTo_of_makeDirectories hok
    rw [houtcome] at hd
    exact hd.makeDirectories_eq

end FileTree

end Marginalia
