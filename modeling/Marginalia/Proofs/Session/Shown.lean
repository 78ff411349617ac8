import Marginalia.Proofs.Keywords.Placed
import Marginalia.Proofs.Session.Run
import Marginalia.Proofs.Text.Partition

/-!
# What a form shows is what the text gives

A session keeps what it derived last together with the version that it was
derived from.  Versions only grow and each stands for one text, so what is kept
is shown again only while the text is the same.  For a keyword list this means
that the lines of its groups are lines of the text that is edited, whatever
happened before.
-/

namespace Marginalia

namespace Session

variable {View Change : Type} [Document View Change]

/-- What is kept was derived from a version that was reached, and from the text
if that is the version of the text. -/
structure Current (s : Session View) : Prop where
  version_le : ∀ version v, s.derived = some (version, v) → version ≤ s.buffer.version
  eq_ofText : ∀ v, s.derived = some (s.buffer.version, v) → v = Document.ofText s.text

variable {s s' : Session View}

theorem Current.shown_eq (h : s.Current) : s.shown = Document.ofText s.text := by
  unfold shown
  split
  · next version v hderived =>
      split
      · next hversion =>
          rw [hversion] at hderived
          exact h.eq_ofText v hderived
      · rfl
  · rfl

/-- The buffer may be marked as saved, or have another text under a later
version. -/
theorem Current.of_buffer (h : s.Current) (hderived : s'.derived = s.derived)
    (hbuffer : s'.buffer.version = s.buffer.version ∧ s'.buffer.text = s.buffer.text ∨
      s.buffer.version < s'.buffer.version) : s'.Current := by
  rcases hbuffer with ⟨hversion, htext⟩ | hversion
  · constructor
    · rw [hderived, hversion]
      exact h.version_le
    · rw [hderived, hversion, text, htext]
      exact h.eq_ofText
  · constructor
    · intro version v hkept
      rw [hderived] at hkept
      exact Nat.le_of_lt (Nat.lt_of_le_of_lt (h.version_le version v hkept) hversion)
    · intro v hkept
      rw [hderived] at hkept
      have hle := h.version_le _ v hkept
      omega

theorem current_start (quiet : Nat) (t : Text) : (start quiet t : Session View).Current := by
  constructor
  · intro version v hkept
    cases hkept
  · intro v hkept
    cases hkept

theorem Current.view (h : s.Current) : s.view.2.Current := by
  constructor
  · intro version v hkept
    obtain ⟨rfl, -⟩ := Prod.mk.inj (Option.some.inj hkept)
    exact Nat.le_refl _
  · intro v hkept
    obtain ⟨-, rfl⟩ := Prod.mk.inj (Option.some.inj hkept)
    exact h.shown_eq

theorem Current.refresh (h : s.Current) : s.refresh.Current :=
  h.view.of_buffer rfl (Or.inl ⟨rfl, rfl⟩)

theorem edit_eq_refresh (s : Session View) (change : Change) (now : Nat) :
    ∃ d, (s.edit change now).2 =
      ({ s.view.2 with buffer := (s.patched change).2, debounce := d } : Session View).refresh :=
  ⟨_, rfl⟩

/-- The session with the text that a change leaves, before the form is
rendered. -/
theorem Current.patched (h : s.Current) (change : Change) (d : Debounce) :
    ({ s.view.2 with buffer := (s.patched change).2, debounce := d } : Session View).Current := by
  rcases Buffer.apply_cases s.buffer (Document.splices s.text s.shown change) with
    hsame | ⟨-, t, hbuffer⟩
  · rw [Session.patched, hsame]
    exact h.view.of_buffer rfl (Or.inl ⟨rfl, rfl⟩)
  · rw [Session.patched, hbuffer]
    exact h.view.of_buffer rfl (Or.inr (Nat.lt_succ_self _))

theorem Current.edit (h : s.Current) (change : Change) (now : Nat) :
    (s.edit change now).2.Current := by
  obtain ⟨d, hedit⟩ := edit_eq_refresh s change now
  rw [hedit]
  exact (h.patched change d).refresh

theorem load_eq_refresh (s : Session View) (t : Text) (source : LoadSource) (now : Nat) :
    ∃ b d, s.buffer.version < b.version ∧
      (s.load t source now).2 = ({ s with buffer := b, debounce := d } : Session View).refresh := by
  by_cases hstorage : source = .storage
  · refine ⟨(s.buffer.replaceAll t).2.markSaved, s.debounce.clear, Nat.lt_succ_self _, ?_⟩
    simp [Session.load, hstorage]
  · refine ⟨(s.buffer.replaceAll t).2, s.debounce.touch now, Nat.lt_succ_self _, ?_⟩
    simp [Session.load, hstorage]

theorem Current.load (h : s.Current) (t : Text) (source : LoadSource) (now : Nat) :
    (s.load t source now).2.Current := by
  obtain ⟨b, d, hversion, hload⟩ := load_eq_refresh s t source now
  rw [hload]
  apply Current.refresh
  exact h.of_buffer rfl (Or.inr hversion)

theorem Current.flush (h : s.Current) (store : Store) (clock : Clock) :
    (s.flush store clock).2.1.Current := by
  obtain ⟨saved, d, hflush⟩ := s.exists_flush_eq store clock
  rw [hflush]
  exact h.of_buffer rfl (Or.inl ⟨rfl, rfl⟩)

theorem preserved_current : Preserved fun s : Session View => s.Current where
  view _ h := h.view
  edit _ change now h := h.edit change now
  load _ t source now h := h.load t source now
  flush _ store clock h := h.flush store clock

/-! ## The groups of a keyword list -/

open Keywords (KeywordList KeywordEdit AccountsFor groupContent globalContent)

theorem groupSpan?_eq {s : Session KeywordList} {content : List Line}
    (h : AccountsFor s.text.lines content s.shown.groups) (i : Fin s.shown.groups.length) :
    ∃ l, (s.shown.groups[i].linesIn s.text.lines).head? = some l ∧
      s.groupSpan? i = some l.span := by
  have hmem : s.shown.groups[i] ∈ s.shown.groups := List.getElem_mem i.isLt
  have hpos := h.lineCount_pos _ hmem
  have hwithin := h.within hmem
  have hstart : s.shown.groups[i].start < s.text.lines.length := by omega
  obtain ⟨l, hline⟩ : ∃ l, s.text.lines[s.shown.groups[i].start]? = some l :=
    ⟨_, List.getElem?_eq_getElem hstart⟩
  refine ⟨l, ?_, ?_⟩
  · rw [Keywords.Group.linesIn, List.head?_take, if_neg (by omega), List.head?_drop, hline]
  · have hgroup : s.shown.groups[(i : Nat)]? = some s.shown.groups[i] :=
      List.getElem?_eq_getElem i.isLt
    rw [groupSpan?, hgroup, Option.bind_some, Buffer.lineSpan?_eq]
    exact congrArg (Option.map Line.span) hline

/-- The groups of every text have its lines of content outside the global
sections, each line once and in order, and the words are the lines inside.  In a
session, whatever happened since the start, the groups are those of the text,
and the span of a group is that of its first line. -/
theorem accountsFor_shown_run :
    (∀ t : Text, AccountsFor t.lines (groupContent t.lines) (KeywordList.ofText t).groups ∧
      (KeywordList.ofText t).globalFilter =
        (globalContent t.lines).map fun l => Text.trim l.content) ∧
    ∀ (quiet : Nat) (t : Text) (actions : List (Action KeywordEdit)),
      let s := (start quiet t : Session KeywordList).run actions
      s.shown = KeywordList.ofText s.text ∧
        ∀ i : Fin s.shown.groups.length, ∃ l,
          (s.shown.groups[i].linesIn s.text.lines).head? = some l ∧
            s.groupSpan? i = some l.span := by
  constructor
  · exact KeywordList.accountsFor_ofText
  · intro quiet t actions s
    have hshown : s.shown = KeywordList.ofText s.text :=
      (preserved_current.run (current_start quiet t) actions).shown_eq
    refine ⟨hshown, ?_⟩
    have haccounts := (KeywordList.accountsFor_ofText s.text).1
    rw [← hshown] at haccounts
    exact groupSpan?_eq haccounts

end Session

end Marginalia
