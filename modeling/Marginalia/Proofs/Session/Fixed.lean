import Marginalia.Proofs.Keywords.Origin
import Marginalia.Proofs.Session.Shown
import Marginalia.Proofs.Text.Smallest

/-!
# A text that is written as itself stays so

The text of a keyword list is written as itself when reading and writing it
again changes nothing.  An edit of such a text writes a list that was not read,
but its lines are those of a canonical list, so the new text is written as
itself as well.  There is one exception: when the last group goes, the blank
line above the comments that stood behind it is written and not read back.
-/

namespace Marginalia

namespace Keywords.KeywordList

variable {l : KeywordList} {t : Text}

/-- A list that was written in a canonical layout is read line by line, with its
layout. -/
theorem Writable.layout_ofText_toText (h : l.Writable) (hy : (Layout.ofText t).Canonical) :
    (Text.lines (l.toText (some t))).map Line.content = l.lines (Layout.ofText t) ∧
      Layout.ofText (l.toText (some t)) = Layout.ofText t := by
  have hinside := h.isInside_of_mem_inside
  have hheader : (Layout.ofText t).header.map Text.readLine = (Layout.ofText t).header := by
    rw [List.map_congr_left fun line hline => Text.readLine_of_isLine (hy.header line hline).1,
      List.map_id']
  have hreread : (Layout.ofText t).reread = Layout.ofText t := by rw [Layout.reread, hheader]
  have hcontent := map_content_unlines h.words (fun line hline => (hinside line hline).1)
    (copies_layout t)
  rw [hreread] at hcontent
  refine ⟨hcontent, ?_⟩
  have hwritten : Layout.ofText (l.toText (some t)) =
      (Layout.Progress.start.read (l.lines (Layout.ofText t))).layout := by
    rw [Layout.ofText_eq_read, ← hcontent]
    rfl
  rw [hwritten, lines_eq]
  exact Layout.read_lines (Layout.canonical_iff_copies.mp hy) h.words hinside (head?_inside l)

/-- With the lines of a canonical list a text is written as itself. -/
theorem toText_ofText_of_inside_eq {k : KeywordList} (hk : k.Canonical)
    (hwords : k.globalFilter = l.globalFilter) (hinside : k.inside = l.inside)
    (hy : (Layout.ofText t).Canonical) :
    (ofText (l.toText (some t))).toText (some (l.toText (some t))) = l.toText (some t) := by
  have hlines : l.lines (Layout.ofText t) = k.lines (Layout.ofText t) := by
    rw [lines_eq, lines_eq, hwords, hinside]
  have hwritten : l.toText (some t) = unlines (k.lines (Layout.ofText t)) := congrArg unlines hlines
  obtain ⟨hread, hlayout⟩ := unplaced_ofText_unlines hk hy
  rw [← hwritten] at hread hlayout
  calc (ofText (l.toText (some t))).toText (some (l.toText (some t)))
      = (ofText (l.toText (some t))).unplaced.toText (some (l.toText (some t))) :=
        (toText_unplaced _ _).symm
    _ = unlines ((ofText (l.toText (some t))).unplaced.lines
          (Layout.ofText (l.toText (some t)))) := rfl
    _ = l.toText (some t) := by rw [hread, hlayout, ← hwritten]

theorem inside_of_groups_eq_nil (h : l.groups = []) :
    l.inside = if l.trailing = [] then [] else [] :: l.trailing := by
  by_cases hnone : l.trailing = []
  · simp [inside, groupLines, h, hnone]
  · simp [inside, groupLines, h, hnone]

/-- A canonical list without groups has no blank line above its comments. -/
theorem Canonical.head?_trailing_ne (h : l.Canonical) (hgroups : l.groups = []) :
    l.trailing.head? ≠ some [] := by
  obtain ⟨-, runs, hruns, hnumbered, htrailing⟩ := h
  apply htrailing.of_nil
  by_contra hne
  exact Assembly.numberRuns_ne_nil hruns.isRun hne (hnumbered.symm.trans hgroups)

/-- Without groups a text is written as itself only when no blank line stands
above the comments. -/
theorem Writable.head?_trailing_of_toText_eq (h : l.Writable) (hy : (Layout.ofText t).Canonical)
    (hgroups : l.groups = [])
    (hfixed : (ofText (l.toText (some t))).toText (some (l.toText (some t))) = l.toText (some t)) :
    l.trailing.head? ≠ some [] := by
  obtain ⟨hcontent, hlayout⟩ := h.layout_ofText_toText hy
  obtain ⟨hwords, hkinds⟩ := h.ofText_toText t
  obtain ⟨hcanonical, hcopied⟩ := canonical_of_toText_eq hfixed
  generalize l.toText (some t) = u at hfixed hcontent hlayout hwords hkinds hcanonical hcopied
  have hnone : (ofText u).groups = [] := by
    have hseparate : l.Separate := by simp [Separate, hgroups]
    simpa [hgroups] using hkinds.mpr hseparate
  have hlines := ((writable_spaced_of_unplaced hcanonical).1.layout_ofText_toText hcopied).1
  rw [hfixed, hcontent, hlayout, lines_eq, lines_eq, hwords] at hlines
  have hinside := List.append_cancel_left hlines
  rw [inside_of_groups_eq_nil hgroups, inside_of_groups_eq_nil hnone] at hinside
  have hsame : l.trailing = (ofText u).trailing := by
    split at hinside
    · next hnil =>
        split at hinside
        · next hnil' => rw [hnil, hnil']
        · cases hinside
    · split at hinside
      · cases hinside
      · exact (List.cons.inj hinside).2
  have hhead := hcanonical.head?_trailing_ne (by simp [unplaced, hnone])
  rw [hsame]
  exact hhead

/-- A list that can be written gives a text that is written as itself, unless it
has no group and a blank line above its comments. -/
theorem toText_ofText_toText_iff (h : l.Writable) (hs : l.Spaced)
    (hy : (Layout.ofText t).Canonical) :
    (ofText (l.toText (some t))).toText (some (l.toText (some t))) = l.toText (some t) ↔
      ¬(l.groups = [] ∧ l.trailing.head? = some []) := by
  constructor
  · rintro hfixed ⟨hgroups, hhead⟩
    exact h.head?_trailing_of_toText_eq hy hgroups hfixed hhead
  · intro hnot
    obtain ⟨k, hk, hwords, hinside, -⟩ := exists_canonical_inside h hs fun hgroups hhead =>
      hnot ⟨hgroups, hhead⟩
    exact toText_ofText_of_inside_eq hk hwords hinside hy

end Keywords.KeywordList

namespace Session

open Keywords (KeywordList KeywordEdit)

theorem Current.text_edit {s : Session KeywordList} (h : s.Current) {e : KeywordEdit}
    {l : KeywordList} (hl : e.run? (KeywordList.ofText s.text) = some l) (now : Nat) :
    (s.edit e now).2.text = l.toText (some s.text) := by
  have htext : (s.edit e now).2.text = (s.buffer.apply
      (((e.textAfter? s.text s.shown).bind (Edit.between? s.text)).toList)).2.text := rfl
  have hshown : s.shown = KeywordList.ofText s.text := h.shown_eq
  have hafter : e.textAfter? s.text s.shown = some (l.toText (some s.text)) := by
    rw [KeywordEdit.textAfter?, hshown, hl, Option.map_some]
  rw [htext, hafter, Option.bind_some]
  exact s.buffer.text_apply_between? _

/-- Whatever happened in a session, an accepted edit of the groups of a text
that is written as itself leaves a text that is written as itself, unless the
last group goes and the comments behind it start with a blank line. -/
theorem toText_edit_eq_iff (quiet : Nat) (t : Text) (actions : List (Action KeywordEdit))
    (e : KeywordEdit) (l : KeywordList) (now : Nat) :
    let s := (start quiet t : Session KeywordList).run actions
    (KeywordList.ofText s.text).toText (some s.text) = s.text → e.KeepsWords →
      e.run? (KeywordList.ofText s.text) = some l →
      let u := (s.edit e now).2.text
      u = l.toText (some s.text) ∧
        ((KeywordList.ofText u).toText (some u) = u ↔
          ¬(l.groups = [] ∧ (KeywordList.ofText s.text).trailing.head? = some [])) := by
  intro s hfixed he hl u
  have hu : u = l.toText (some s.text) :=
    (preserved_current.run (current_start quiet t) actions).text_edit hl now
  obtain ⟨hcanonical, hlayout⟩ := KeywordList.canonical_of_toText_eq hfixed
  obtain ⟨hwritable, hspaced⟩ := KeywordList.writable_spaced_of_unplaced hcanonical
  have hwritten := KeywordList.writable_run? hwritable he hl
  have hspacing := KeywordList.spaced_run? hwritable hspaced he hl
  have htrailing : l.trailing = (KeywordList.ofText s.text).trailing :=
    KeywordList.trailing_run? hwritable he hl
  refine ⟨hu, ?_⟩
  rw [hu, ← htrailing]
  exact KeywordList.toText_ofText_toText_iff hwritten hspacing hlayout

/-- The group below a removed first one keeps its comment and loses the blank
line above it. -/
theorem toText_edit_eq_iff_first :
    let t : Text := "[GLOBAL_FILTER]\n\n[WORD_GROUPS]\n\nA\n\n\n# b\nB\n\n".toList
    let u := ((start 0 t : Session KeywordList).edit (.removeGroup 0) 0).2.text
    u = "[GLOBAL_FILTER]\n\n[WORD_GROUPS]\n\n# b\nB\n\n".toList ∧
      (KeywordList.ofText u).toText (some u) = u := by
  intro t u
  obtain ⟨l, hl, hgroups, htext⟩ : ∃ l, (KeywordEdit.removeGroup 0).run? (KeywordList.ofText t) =
      some l ∧ l.groups ≠ [] ∧ l.toText (some t) =
        "[GLOBAL_FILTER]\n\n[WORD_GROUPS]\n\n# b\nB\n\n".toList :=
    ⟨_, rfl, by decide, by decide⟩
  have hfixed : (KeywordList.ofText t).toText (some t) = t := by decide
  obtain ⟨hu, hiff⟩ := toText_edit_eq_iff 0 t [] (.removeGroup 0) l 0 hfixed trivial hl
  exact ⟨hu.trans htext, hiff.mpr fun hnone => hgroups hnone.1⟩

/-- The blank line above the comments stays when the last group goes, and is not
read back. -/
theorem toText_edit_ne_of_last_group :
    let t : Text := "[GLOBAL_FILTER]\n\n[WORD_GROUPS]\n\nA\n\n\n# c\n".toList
    let u := ((start 0 t : Session KeywordList).edit (.removeGroup 0) 0).2.text
    (KeywordList.ofText t).toText (some t) = t ∧
      ((KeywordEdit.removeGroup 0).run? (KeywordList.ofText t)).isSome = true ∧
      u = "[GLOBAL_FILTER]\n\n[WORD_GROUPS]\n\n\n# c\n".toList ∧
      (KeywordList.ofText u).toText (some u) =
        "[GLOBAL_FILTER]\n\n[WORD_GROUPS]\n\n# c\n".toList ∧
      (KeywordList.ofText u).toText (some u) ≠ u := by
  intro t u
  have hu : u = "[GLOBAL_FILTER]\n\n[WORD_GROUPS]\n\n\n# c\n".toList := by decide
  rw [hu]
  exact ⟨by decide, by decide, rfl, by decide, by decide⟩

end Session

end Marginalia
