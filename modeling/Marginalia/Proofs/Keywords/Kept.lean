import Marginalia.Proofs.Keywords.Edited
import Marginalia.Proofs.Keywords.Runs
import Mathlib.Data.List.InsertIdx

/-!
# What a list keeps of its text

The words of a list are lines of content, and its comments are comments as they
are written or blank lines, whatever the text was.  So a list can be written
when its groups can, and it still can be after every edit of its groups: new
content is checked before it is taken, groups keep their comments wherever they
are put, and the only comment that is added is the blank line that a removed
group leaves behind.
-/

namespace Marginalia.Keywords

/-! ## Comments and words -/

namespace Assembly

/-- The comments of the groups, and those that wait for one. -/
def notes (a : Assembly) : List Text :=
  (a.list.groups ++ a.run).flatMap Group.comments ++
    a.leaf.toList.flatMap OpenGroup.comments ++ a.pending

theorem flatMap_comments_numberRun (cluster : Nat) (run : List Group) :
    (numberRun cluster run).flatMap Group.comments = run.flatMap Group.comments := by
  rw [List.flatMap_def, List.flatMap_def, map_numberRun fun _ _ => rfl]

variable {a b : Assembly}

theorem notes_closeLeaf : a.closeLeaf.notes = a.notes := by
  cases hleaf : a.leaf with
  | none => rw [closeLeaf_of_leaf_eq_none hleaf]
  | some g => simp [notes, closeLeaf, hleaf]

theorem notes_flushRun : a.flushRun.notes = a.notes := by
  simp [notes, flushRun, flatMap_comments_numberRun]

/-- Words and comments can be written. -/
structure Keeps (a : Assembly) : Prop where
  words : ∀ w ∈ a.list.globalFilter, IsWord w
  notes : ∀ c ∈ a.notes, IsNote c

namespace Keeps

theorem congr (h : a.Keeps) (hwords : b.list.globalFilter = a.list.globalFilter)
    (hnotes : ∀ c ∈ b.notes, c ∈ a.notes ∨ IsNote c) : b.Keeps := by
  constructor
  · rw [hwords]
    exact h.words
  · intro c hc
    rcases hnotes c hc with hc | hc
    · exact h.notes c hc
    · exact hc

theorem closeLeaf (h : a.Keeps) : a.closeLeaf.Keeps :=
  h.congr (by rw [list_closeLeaf]) fun _ hc => Or.inl (by rwa [notes_closeLeaf] at hc)

theorem flushRun (h : a.Keeps) : a.flushRun.Keeps :=
  h.congr rfl fun _ hc => Or.inl (by rwa [notes_flushRun] at hc)

theorem waiting (h : a.Keeps) {pending : List Text} (gap : Nat)
    (hpending : ∀ c ∈ pending, c ∈ a.pending ∨ IsNote c) : (a.waiting pending gap).Keeps := by
  apply h.congr
  · rfl
  · intro c hc
    rw [Assembly.notes, List.mem_append] at hc
    rcases hc with hc | hc
    · exact Or.inl (List.mem_append_left _ hc)
    · rcases hpending c hc with hc | hc
      · exact Or.inl (List.mem_append_right _ hc)
      · exact Or.inr hc

theorem pushBlank (h : a.Keeps) : a.pushBlank.Keeps := by
  rcases a.pushBlank_cases with ⟨-, hpush⟩ | ⟨-, pending, gap, hpending, hpush⟩
  · rw [hpush]
    exact h.congr rfl fun _ => Or.inl
  · rw [hpush]
    apply h.closeLeaf.flushRun.waiting
    intro c hc
    rcases hpending c hc with hc | hc
    · left
      rw [← a.pending_closeLeaf] at hc
      exact hc
    · exact Or.inr (Or.inl hc)

theorem pushComment (h : a.Keeps) {written : Text} (hwritten : ReadsAs written (.comment written)) :
    (a.pushComment written).Keeps := by
  rcases a.pushComment_cases written with ⟨-, hpush⟩ | ⟨-, pending, gap, hpending, hpush⟩
  · rw [hpush]
    exact h
  · rw [hpush]
    apply h.closeLeaf.waiting
    intro c hc
    rcases hpending c hc with hc | hc | rfl
    · left
      rwa [a.pending_closeLeaf]
    · exact Or.inr (Or.inl hc)
    · exact Or.inr (Or.inr hwritten)

theorem pushSentinel (h : a.Keeps) (opened : Section) : (a.pushSentinel opened).Keeps := by
  apply h.closeLeaf.flushRun.congr
  · rfl
  · intro c hc
    left
    rw [Assembly.notes, List.mem_append] at hc
    rcases hc with hc | hc
    · exact List.mem_append_left _ hc
    · cases hc

theorem pushWord (h : a.Keeps) {word : Text} (hword : IsWord word) : (a.pushWord word).Keeps :=
  ⟨forall_mem_concat h.words hword, h.notes⟩

theorem extend (h : a.Keeps) {g : OpenGroup} (hleaf : a.leaf = some g) (kind : OpenKind) :
    ({ a.enter with leaf := some { g with kind } } : Assembly).Keeps := by
  apply h.congr
  · rfl
  · intro c hc
    left
    simpa [Assembly.notes, enter, hleaf] using hc

theorem begin (h : a.Keeps) (hleaf : a.leaf = none) (start : Nat) (kind : OpenKind) :
    (a.begin ⟨start, a.pending, kind⟩).Keeps := by
  apply h.congr
  · rfl
  · intro c hc
    left
    simpa [Assembly.notes, Assembly.begin, enter, hleaf] using hc

theorem push (h : a.Keeps) {l : Line} (hlf : '\n' ∉ l.content) : (a.push l).Keeps := by
  rcases LineClass.ofContent_cases l.content with
    ⟨-, hblank⟩ | ⟨opened, -, hsentinel⟩ | ⟨-, hcomment⟩ | hcontent
  · rw [push_blank hblank]
    exact h.pushBlank
  · rw [push_sentinel hsentinel]
    exact h.pushSentinel opened
  · rw [push_comment hcomment]
    exact h.pushComment (readsAs_comment hlf hcomment)
  · by_cases hglobal : a.opened = some .globalFilter
    · rw [push_word hcontent hglobal]
      exact h.pushWord (isWord_trim hlf hcontent)
    · rcases push_content_cases hcontent hglobal with
        ⟨g, kind, hleaf, -, hpush⟩ | ⟨kind, -, -, hpush⟩
      · rw [hpush]
        exact h.extend hleaf kind
      · rw [hpush, ← a.pending_closeLeaf]
        exact h.closeLeaf.begin a.leaf_closeLeaf l.index kind

end Keeps

end Assembly

/-! ## Groups that can be written -/

theorem readsAs_of_readsBack {line : Text} {c : LineClass} (h : readsBack line c = true) :
    ReadsAs line c := by
  simp only [readsBack, Bool.and_eq_true, Bool.not_eq_true', List.any_eq_false, Bool.or_eq_true,
    beq_iff_eq, not_or] at h
  obtain ⟨hchars, hclass⟩ := h
  refine ⟨⟨fun hlf => (hchars _ hlf).1 rfl, fun hcr => ?_⟩, hclass⟩
  exact (hchars _ (List.mem_of_getLast? hcr)).2 rfl

theorem GroupKind.readable_of_isWritable {kind : GroupKind} (h : kind.isWritable = true) :
    kind.Readable := by
  cases kind with
  | plain keywords =>
      simp only [isWritable, Bool.and_eq_true, Bool.not_eq_true', List.all_eq_true] at h
      exact ⟨by simpa using h.1, fun k hk => readsAs_of_readsBack (h.2 k hk)⟩
  | named name keywords =>
      simp only [isWritable, Bool.and_eq_true, List.all_eq_true] at h
      exact ⟨readsAs_of_readsBack h.1, fun k hk => readsAs_of_readsBack (h.2 k hk)⟩
  | single item => exact readsAs_of_readsBack h
  | cluster items =>
      simp only [isWritable, Bool.and_eq_true, List.all_eq_true, decide_eq_true_eq] at h
      exact ⟨h.1, fun item hitem => readsAs_of_readsBack (h.2 item hitem)⟩

namespace KeywordList

/-- Every line of the list is read back as what it is. -/
structure Writable (l : KeywordList) : Prop where
  words : ∀ w ∈ l.globalFilter, IsWord w
  groups : ∀ g ∈ l.groups, g.Readable
  trailing : ∀ c ∈ l.trailing, IsNote c

/-- The words of a list that was read are lines of content, and its comments are
comments. -/
theorem keeps_ofText (t : Text) :
    (∀ w ∈ (ofText t).globalFilter, IsWord w) ∧
      (∀ g ∈ (ofText t).groups, ∀ c ∈ g.comments, IsNote c) ∧
      ∀ c ∈ (ofText t).trailing, IsNote c := by
  have hread : ∀ (ls : List Line) (a : Assembly), (∀ l ∈ ls, '\n' ∉ l.content) → a.Keeps →
      (ls.foldl Assembly.push a).Keeps := by
    intro ls
    induction ls with
    | nil => exact fun a _ ha => ha
    | cons l ls ih =>
        intro a hls ha
        exact ih (a.push l) (fun m hm => hls m (by simp [hm])) (ha.push (hls l (by simp)))
  have hempty : Assembly.empty.Keeps :=
    ⟨by simp [Assembly.empty, KeywordList.empty], by
      simp [Assembly.notes, Assembly.empty, KeywordList.empty]⟩
  have hkeeps := hread t.lines Assembly.empty
    (fun l hl => Text.not_mem_content_of_mem_lines hl) hempty
  have hended := hkeeps.closeLeaf.flushRun
  refine ⟨hended.words, ?_, ?_⟩
  · intro g hg c hc
    apply hended.notes
    rw [Assembly.notes, List.append_assoc, List.mem_append]
    left
    rw [List.flatMap_append, List.mem_append]
    exact Or.inl (List.mem_flatMap.mpr ⟨g, hg, hc⟩)
  · intro c hc
    apply hended.notes
    rw [Assembly.notes, List.mem_append]
    right
    have htrailing : (ofText t).trailing ⊆
        (t.lines.foldl Assembly.push Assembly.empty).closeLeaf.flushRun.pending := by
      simp only [ofText, Assembly.finish]
      split
      · exact fun _ => List.mem_of_mem_tail
      · exact List.Subset.refl _
    exact htrailing hc

/-- A list that was read can be written when its groups can. -/
theorem writable_ofText {t : Text} (h : ∀ g ∈ (ofText t).groups, g.kind.isWritable = true) :
    (ofText t).Writable := by
  obtain ⟨hwords, hcomments, htrailing⟩ := keeps_ofText t
  refine ⟨hwords, fun g hg => ?_, htrailing⟩
  exact ⟨GroupKind.readable_of_isWritable (h g hg), hcomments g hg⟩

end KeywordList

/-! ## Edits -/

namespace KeywordEdit

/-- The edit takes a group from its place: away, or to another place. -/
def Displaces (l : KeywordList) : KeywordEdit → Prop
  | removeGroup _ => True
  | moveGroup _ _ => True
  | removeAlias index _ => ∃ item, (l.groups[index]?).map Group.kind = some (.single item)
  | _ => False

/-- The edit is one of the groups. -/
def KeepsWords : KeywordEdit → Prop
  | setGlobalFilter _ => False
  | _ => True

theorem Displaces.keepsWords {l : KeywordList} {e : KeywordEdit} (h : e.Displaces l) :
    e.KeepsWords := by
  cases e with
  | setGlobalFilter words => exact h.elim
  | _ => trivial

/-- An edit that gives a group another content takes none from its place. -/
theorem Recasts.not_displaces {l : KeywordList} {e : KeywordEdit} {index : Nat} {g : Group}
    {kind : GroupKind} (h : e.Recasts index g.kind kind) (hg : l.groups[index]? = some g) :
    ¬e.Displaces l := by
  generalize hold : g.kind = old at h
  cases h with
  | lessAlias _ =>
      rintro ⟨only, honly⟩
      rw [hg, Option.map_some, hold] at honly
      cases honly
  | _ => exact not_false

/-- A content that can be written is replaced by another one. -/
theorem Recasts.readable {e : KeywordEdit} {index : Nat} {old kind : GroupKind}
    (h : e.Recasts index old kind) (hold : old.Readable) : kind.Readable := by
  have hlines : ∀ {keywords : List Text}, keywords.all isKeyword = true →
      ∀ k ∈ keywords, ReadsAs k (.keyword k) := fun hkeywords k hk =>
    readsAs_of_readsBack (List.all_eq_true.mp hkeywords k hk)
  cases h with
  | plainKeywords hne hkeywords => exact ⟨hne, hlines hkeywords⟩
  | namedKeywords hkeywords => exact ⟨hold.1, hlines hkeywords⟩
  | named hname => exact ⟨readsAs_of_readsBack hname, hold.2⟩
  | renamed hname => exact ⟨readsAs_of_readsBack hname, hold.2⟩
  | secondAlias hitem =>
      exact ⟨by simp, List.forall_mem_cons.mpr
        ⟨hold, List.forall_mem_singleton.mpr (readsAs_of_readsBack hitem)⟩⟩
  | anotherAlias hitem =>
      refine ⟨?_, forall_mem_concat hold.2 (readsAs_of_readsBack hitem)⟩
      rw [List.length_append]
      exact Nat.lt_add_right _ hold.1
  | @lessAlias _ item items hitem =>
      have hne : items.eraseIdx item ≠ [] := by
        have hlength := hold.1
        rw [← List.length_pos_iff, List.length_eraseIdx_of_lt hitem]
        omega
      exact GroupKind.readable_ofAliases hne fun a ha => hold.2 a (List.mem_of_mem_eraseIdx ha)

end KeywordEdit

section Edits

variable {P : GroupKind → List Text → Prop}

namespace Group

variable {gs : List Group}

/-- Numbering the runs anew changes neither the content nor the comments of a
group. -/
theorem map_renumber (gs : List Group) :
    (renumber gs).map (fun g => (g.kind, g.comments)) = gs.map fun g => (g.kind, g.comments) := by
  have hfrom : ∀ (gs : List Group) (previous : Option Nat) (before : Nat),
      (renumberFrom previous before gs).map (fun g => (g.kind, g.comments)) =
        gs.map fun g => (g.kind, g.comments) := by
    intro gs
    induction gs with
    | nil => intro previous before; rfl
    | cons g gs ih =>
        intro previous before
        rw [renumberFrom]
        split
        · rw [List.map_cons, List.map_cons, ih]
        · rw [List.map_cons, List.map_cons, ih]
  exact hfrom gs none 0

theorem forall_mem_renumber (h : ∀ g ∈ gs, P g.kind g.comments) :
    ∀ g ∈ renumber gs, P g.kind g.comments := by
  intro g hg
  have hmem : (g.kind, g.comments) ∈ (renumber gs).map fun g => (g.kind, g.comments) :=
    List.mem_map.mpr ⟨g, hg, rfl⟩
  rw [map_renumber] at hmem
  obtain ⟨g', hg', hsame⟩ := List.mem_map.mp hmem
  obtain ⟨hkind, hcomments⟩ := Prod.mk.inj hsame
  rw [← hkind, ← hcomments]
  exact h g' hg'

theorem forall_mem_inheritBlank (hblank : ∀ kind cs, P kind cs → P kind [[]]) {removed : Group}
    (h : ∀ g ∈ gs, P g.kind g.comments) :
    ∀ g ∈ removed.inheritBlank gs, P g.kind g.comments := by
  cases gs with
  | nil => exact h
  | cons first rest =>
      obtain ⟨hfirst, hrest⟩ := List.forall_mem_cons.mp h
      rw [inheritBlank]
      split
      · exact List.forall_mem_cons.mpr ⟨hblank first.kind first.comments hfirst, hrest⟩
      · exact h

end Group

namespace KeywordList

variable {l l' : KeywordList}

/-- A property of the content and the comments of a group that edits keep: any
content that can be written has it with the same comments, and the only comment
that is added is a blank line. -/
structure KeptByEdits (P : GroupKind → List Text → Prop) : Prop where
  readable : ∀ kind cs, P kind cs → kind.Readable
  change : ∀ kind kind' cs, P kind cs → kind'.Readable → P kind' cs
  ofKind : ∀ kind : GroupKind, kind.Readable → P kind []
  blank : ∀ kind cs, P kind cs → P kind [[]]

/-- Another content of a group leaves what does not depend on contents. -/
theorem map_set_kind {β : Type} {f : Group → β}
    (hf : ∀ (g : Group) (kind : GroupKind), f { g with kind } = f g) {gs : List Group} {g : Group}
    {i : Nat} (hg : gs[i]? = some g) (kind : GroupKind) :
    (gs.set i { g with kind }).map f = gs.map f := by
  obtain ⟨hi, rfl⟩ := List.getElem?_eq_some_iff.mp hg
  rw [List.map_set, hf, ← List.getElem_map f (h := by simpa using hi), List.set_getElem_self]

/-- What edits keep holds of the groups of an edited list; its words and the
comments behind the groups are those it had. -/
theorem forall_mem_run? (hP : KeptByEdits P) (h : ∀ g ∈ l.groups, P g.kind g.comments)
    {e : KeywordEdit} (he : e.KeepsWords) (hl : e.run? l = some l') :
    (∀ g ∈ l'.groups, P g.kind g.comments) ∧ l'.globalFilter = l.globalFilter ∧
      l'.trailing = l.trailing := by
  cases edited_of_run? hl with
  | reworded words => exact he.elim
  | inserted index kind hkind =>
      refine ⟨Group.forall_mem_renumber fun g hg => ?_, rfl, rfl⟩
      rcases List.eq_or_mem_of_mem_insertIdx hg with rfl | hg
      · exact hP.ofKind kind (GroupKind.readable_of_isWritable hkind)
      · exact h g hg
  | removed hg _ =>
      refine ⟨Group.forall_mem_renumber ?_, rfl, rfl⟩
      rw [List.forall_mem_append]
      constructor
      · exact fun g hg => h g (List.mem_of_mem_take hg)
      · exact Group.forall_mem_inheritBlank hP.blank fun g hg => h g (List.mem_of_mem_drop hg)
  | @moved _ _ g hg _ _ =>
      refine ⟨Group.forall_mem_renumber fun g' hg' => ?_, rfl, rfl⟩
      rcases List.eq_or_mem_of_mem_insertIdx hg' with rfl | hg'
      · exact h g (List.mem_of_getElem? hg)
      · exact h g' (List.mem_of_mem_eraseIdx hg')
  | stayed _ => exact ⟨h, rfl, rfl⟩
  | @recast _ _ g kind hg hrecasts =>
      have hold := h g (List.mem_of_getElem? hg)
      refine ⟨fun g' hg' => ?_, rfl, rfl⟩
      rcases List.mem_or_eq_of_mem_set hg' with hg' | rfl
      · exact h g' hg'
      · exact hP.change g.kind kind g.comments hold
          (hrecasts.readable (hP.readable g.kind g.comments hold))

/-- A list can still be written after an edit of its groups. -/
theorem writable_run? (h : l.Writable) {e : KeywordEdit} (he : e.KeepsWords)
    (hl : e.run? l = some l') : l'.Writable := by
  have hP : KeptByEdits fun kind cs => kind.Readable ∧ ∀ c ∈ cs, IsNote c :=
    ⟨fun _ _ h => h.1, fun _ _ _ h hkind => ⟨hkind, h.2⟩, fun _ hkind => ⟨hkind, by simp⟩,
      fun _ _ h => ⟨h.1, by simp [IsNote]⟩⟩
  obtain ⟨hgroups, hwords, htrailing⟩ :=
    forall_mem_run? hP (fun g hg => ⟨(h.groups g hg).kind, (h.groups g hg).comments⟩) he hl
  refine ⟨by rw [hwords]; exact h.words, fun g hg => ?_, by rw [htrailing]; exact h.trailing⟩
  exact ⟨(hgroups g hg).1, (hgroups g hg).2⟩

/-- Edits of the groups leave the comments behind the last one. -/
theorem trailing_run? (h : l.Writable) {e : KeywordEdit} (he : e.KeepsWords)
    (hl : e.run? l = some l') : l'.trailing = l.trailing := by
  have hP : KeptByEdits fun kind _ => kind.Readable :=
    ⟨fun _ _ h => h, fun _ _ _ _ hkind => hkind, fun _ hkind => hkind, fun _ _ h => h⟩
  exact (forall_mem_run? hP (fun g hg => (h.groups g hg).kind) he hl).2.2

end KeywordList

end Edits

end Marginalia.Keywords
