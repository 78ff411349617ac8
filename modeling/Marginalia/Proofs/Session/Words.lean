import Marginalia.Proofs.Session.Fixed

/-!
# The words of the global section

An edit of the words is never refused, and the words are written one a line
between two sentinels.  They are read back when each can stand there as a line:
other words break off, vanish, or open the second section, which then ends above
the groups.  The groups are written again as well, and their names, whatever the
words, are read back only if they can stand between brackets.
-/

namespace Marginalia

namespace Keywords.KeywordList

variable {l l' : KeywordList} {t : Text}

/-- Groups that are read back have names that can stand between brackets. -/
theorem isGroupName_of_map_kind_eq (hcanonical : l'.unplaced.Canonical)
    (hkinds : l'.groups.map Group.kind = l.groups.map Group.kind) {g : Group} (hg : g ∈ l.groups)
    {n : Text} {keywords : List Text} (hkind : g.kind = .named n keywords) : IsGroupName n := by
  have hmem : g.kind ∈ l'.groups.map Group.kind := by
    rw [hkinds]
    exact List.mem_map_of_mem hg
  obtain ⟨g', hg', hsame⟩ := List.mem_map.mp hmem
  have hreadable := ((writable_spaced_of_unplaced hcanonical).1.groups g' hg').kind
  rw [hsame, hkind] at hreadable
  exact (isGroupName_of_bracketed hreadable.1.ofContent_eq).1

/-- With words that can be read back, what is read of the written lines is
canonical. -/
theorem canonical_setGlobalFilter (t : Text) {words : List Text} (hwords : ∀ w ∈ words, IsWord w) :
    (ofText (((ofText t).setGlobalFilter words).toText (some t))).unplaced.Canonical := by
  have hinside := isInput_of_mem_inside t
  have hread := unplaced_ofText_toText (l := (ofText t).setGlobalFilter words) hwords
    (fun line hline => (hinside line hline).2) t
  rw [hread]
  exact canonical_finish_read hwords fun line hline => (hinside line hline).1

/-- Other words leave the groups as they are, so they are read back if their
names are. -/
theorem ofText_setGlobalFilter {words : List Text} (hwords : ∀ w ∈ words, IsWord w)
    (hnames : ∀ g ∈ (ofText t).groups, ∀ n keywords, g.kind = .named n keywords → IsGroupName n) :
    let l := ofText (((ofText t).setGlobalFilter words).toText (some t))
    l.globalFilter = words ∧ l.groups.map Group.kind = (ofText t).groups.map Group.kind := by
  obtain ⟨hold, -⟩ := writable_spaced_of_unplaced (canonical_ofText_of_isGroupName hnames)
  have hwritable : ((ofText t).setGlobalFilter words).Writable :=
    ⟨hwords, hold.groups, hold.trailing⟩
  have hseparate : ((ofText t).setGlobalFilter words).Separate :=
    (isChain_groups_ofText t).imp fun _ _ hnot => hnot.2
  obtain ⟨hfilter, hkinds⟩ := hwritable.ofText_toText t
  exact ⟨hfilter, hkinds.mpr hseparate⟩

/-- Words are read back, with the groups below them, when each is one line of
content and the names of the groups can stand between brackets. -/
theorem ofText_setGlobalFilter_iff (t : Text) (words : List Text) :
    let l := ofText (((ofText t).setGlobalFilter words).toText (some t))
    (l.globalFilter = words ∧ l.groups.map Group.kind = (ofText t).groups.map Group.kind) ↔
      (∀ w ∈ words, IsWord w) ∧
        ∀ g ∈ (ofText t).groups, ∀ n keywords, g.kind = .named n keywords → IsGroupName n := by
  intro l
  constructor
  · rintro ⟨hfilter, hkinds⟩
    have hwords : ∀ w ∈ words, IsWord w := by
      rw [← hfilter]
      exact (keeps_ofText _).1
    refine ⟨hwords, fun g hg n keywords hkind => ?_⟩
    exact isGroupName_of_map_kind_eq (canonical_setGlobalFilter t hwords) hkinds hg hkind
  · rintro ⟨hwords, hnames⟩
    exact ofText_setGlobalFilter hwords hnames

end Keywords.KeywordList

namespace Session

open Keywords (KeywordList KeywordEdit Group IsWord IsGroupName)

/-- Whatever happened in a session, other words are accepted, and the form shows
them above the same groups exactly when each word is one line of content without
white space around it and the names of the groups can stand between brackets. -/
theorem shown_setGlobalFilter_iff (quiet : Nat) (t : Text) (actions : List (Action KeywordEdit))
    (words : List Text) (now : Nat) :
    let s := (start quiet t : Session KeywordList).run actions
    let s' := (s.edit (KeywordEdit.setGlobalFilter words) now).2
    ((KeywordEdit.setGlobalFilter words).run? s.shown).isSome = true ∧
      (s'.shown.globalFilter = words ∧
          s'.shown.groups.map Group.kind = s.shown.groups.map Group.kind ↔
        (∀ w ∈ words, IsWord w) ∧
          ∀ g ∈ s.shown.groups, ∀ n keywords, g.kind = .named n keywords → IsGroupName n) := by
  intro s s'
  have hcurrent : s.Current := preserved_current.run (current_start quiet t) actions
  have hshown : s.shown = KeywordList.ofText s.text := hcurrent.shown_eq
  have hshown' : s'.shown = KeywordList.ofText s'.text := (hcurrent.edit _ now).shown_eq
  have htext : s'.text =
      ((KeywordList.ofText s.text).setGlobalFilter words).toText (some s.text) :=
    hcurrent.text_edit rfl now
  refine ⟨rfl, ?_⟩
  rw [hshown', htext, hshown]
  exact KeywordList.ofText_setGlobalFilter_iff s.text words

/-- A word that is a sentinel is accepted; it and the word below it are gone,
and the latter stands among the groups. -/
theorem shown_setGlobalFilter_ne_of_sentinel :
    let t : Text := "[GLOBAL_FILTER]\n\n[WORD_GROUPS]\n\nA\n\n".toList
    let words : List Text := ["[WORD_GROUPS]".toList, "x".toList]
    let s : Session KeywordList := start 0 t
    let s' := (s.edit (KeywordEdit.setGlobalFilter words) 0).2
    s.shown.globalFilter = [] ∧
      s.shown.groups.map Group.kind = [.plain ["A".toList]] ∧
      ((KeywordEdit.setGlobalFilter words).run? s.shown).isSome = true ∧
      s'.shown.globalFilter = [] ∧
      s'.shown.groups.map Group.kind = [.plain ["x".toList], .plain ["A".toList]] ∧
      ¬(s'.shown.globalFilter = words ∧
        s'.shown.groups.map Group.kind = s.shown.groups.map Group.kind) := by
  decide

end Session

end Marginalia
