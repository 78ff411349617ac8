import Marginalia.Session.Documents

/-!
# Runs of a session

A session is reached from its start by calls: the form is read or changed, a
text is loaded or fetched, the unsaved text is flushed.  `Session.Action` is one
call with everything that the outside contributes to it, the store as the call
finds it included, so a save may be accepted or rejected at every flush,
whatever happened before.

Two facts of a session are kept apart: the deadline of the debounce, and the
version that was saved last.  `Session.Tracked` says that they agree, and every
call preserves it.
-/

namespace Marginalia

namespace Debounce

@[simp] theorem isPending_touch (d : Debounce) (now : Nat) :
    (d.touch now).isPending = true := rfl

@[simp] theorem isPending_clear (d : Debounce) : d.clear.isPending = false := rfl

end Debounce

namespace Buffer

/-- Applying edits either does nothing, and the patch says so, or gives another
text under the next version. -/
theorem apply_cases (b : Buffer) (es : List Edit) :
    b.apply es = (b.noop, b) ∨
      (b.apply es).1.isNoop = false ∧
        ∃ t, (b.apply es).2 = { b with text := t, version := b.version + 1 } := by
  by_cases hnone : Edit.sortByStart (es.filter (Edit.changes b.text)) = []
  · exact Or.inl (by simp [apply, hnone])
  · obtain ⟨e, effective, hsome⟩ := List.exists_cons_of_ne_nil hnone
    refine Or.inr ⟨?_, Edit.applySorted b.text 0 (e :: effective), ?_⟩
    · simp [apply, hsome, Patch.isNoop, Edit.landing]
    · simp [apply, hsome]

@[simp] theorem isNoop_noop (b : Buffer) : b.noop.isNoop = true := rfl

@[simp] theorem isDirty_markSaved (b : Buffer) : b.markSaved.isDirty = false := by
  simp [isDirty, markSaved]

theorem isDirty_of_savedVersion_lt {b : Buffer} (h : b.savedVersion < b.version) :
    b.isDirty = true := by
  have hne : b.version ≠ b.savedVersion := by omega
  simpa [isDirty] using hne

end Buffer

namespace Session

variable {View Change : Type} [Document View Change]

/-- One call on a session, with what the outside contributes to it. -/
inductive Action (Change : Type) where
  | view
  | edit (change : Change) (now : Nat)
  | load (t : Text) (source : LoadSource) (now : Nat)
  | fetch (outcome : Except FetchError Text) (now : Nat)
  | flush (store : Store) (clock : Clock)
  | flushIfDue (now : Nat) (store : Store) (clock : Clock)

def perform (s : Session View) : Action Change → Session View
  | .view => s.view.2
  | .edit change now => (s.edit change now).2
  | .load t source now => (s.load t source now).2
  | .fetch outcome now => (s.loadFetched outcome now).2
  | .flush store clock => (s.flush store clock).2.1
  | .flushIfDue now store clock => (s.flushIfDue now store clock).2.1

def run (s : Session View) (actions : List (Action Change)) : Session View :=
  actions.foldl perform s

/-- All that a flush changes of a session is which version counts as saved, and
the deadline. -/
theorem exists_flush_eq (s : Session View) (store : Store) (clock : Clock) :
    ∃ saved d, (s.flush store clock).2.1 =
      { s with buffer := { s.buffer with savedVersion := saved }, debounce := d } := by
  unfold flush
  split
  · split
    · exact ⟨s.buffer.version, _, rfl⟩
    · exact ⟨s.buffer.savedVersion, _, rfl⟩
  · exact ⟨s.buffer.savedVersion, _, rfl⟩

/-! ## What every call preserves -/

structure Preserved (P : Session View → Prop) : Prop where
  view : ∀ s, P s → P s.view.2
  edit : ∀ s (change : Change) now, P s → P (s.edit change now).2
  load : ∀ s t source now, P s → P (s.load t source now).2
  flush : ∀ s store clock, P s → P (s.flush store clock).2.1

variable {P : Session View → Prop} {s : Session View}

/-- A fetch loads a text or does nothing, and a flush that waits for its time is
a flush or does nothing. -/
theorem Preserved.perform (hP : Preserved P) (h : P s) (action : Action Change) :
    P (s.perform action) := by
  cases action with
  | view => exact hP.view s h
  | edit change now => exact hP.edit s change now h
  | load t source now => exact hP.load s t source now h
  | fetch outcome now =>
      cases outcome with
      | error e => exact h
      | ok t => exact hP.load s t .remote now h
  | flush store clock => exact hP.flush s store clock h
  | flushIfDue now store clock =>
      rw [Session.perform, Session.flushIfDue]
      split
      · exact hP.flush s store clock h
      · exact h

/-- What every call preserves, of the session and of the calls that are still to
come, holds at the end of every run. -/
theorem run_preserves {Q : List (Action Change) → Session View → Prop}
    (hstep : ∀ action actions s, Q (action :: actions) s → Q actions (s.perform action))
    {actions : List (Action Change)} (h : Q actions s) : Q [] (s.run actions) := by
  induction actions generalizing s with
  | nil => exact h
  | cons action actions ih => exact ih (hstep action actions s h)

theorem Preserved.run (hP : Preserved P) (h : P s) (actions : List (Action Change)) :
    P (s.run actions) :=
  run_preserves (Q := fun _ s => P s) (fun action _ _ h => hP.perform h action) h

/-! ## The deadline and the saved version -/

/-- The deadline and the saved version of a session agree: a save is armed
exactly when there is something to save.  No version was saved before it was
reached, so the next version differs from the saved one. -/
structure Tracked (s : Session View) : Prop where
  saved_le : s.buffer.savedVersion ≤ s.buffer.version
  pending_eq : s.debounce.isPending = s.buffer.isDirty

/-- What a form shows does not count: only the buffer and the debounce do. -/
theorem Tracked.congr {s s' : Session View} (h : s.Tracked)
    (hbuffer : s'.buffer = s.buffer) (hdebounce : s'.debounce = s.debounce) :
    s'.Tracked := by
  constructor
  · rw [hbuffer]
    exact h.saved_le
  · rw [hbuffer, hdebounce]
    exact h.pending_eq

theorem tracked_start (quiet : Nat) (t : Text) : (start quiet t : Session View).Tracked :=
  ⟨Nat.le_refl 0, rfl⟩

theorem Tracked.view {s : Session View} (h : s.Tracked) : s.view.2.Tracked :=
  h.congr rfl rfl

/-- A session whose version moved past the saved one, with a save armed. -/
theorem tracked_of_touch {s : Session View} (d : Debounce) (now : Nat)
    (hsaved : s.buffer.savedVersion < s.buffer.version) (harmed : s.debounce = d.touch now) :
    s.Tracked := by
  constructor
  · exact Nat.le_of_lt hsaved
  · rw [harmed, Debounce.isPending_touch, Buffer.isDirty_of_savedVersion_lt hsaved]

/-- A session whose text was just saved, with no save armed. -/
theorem tracked_of_clear {s : Session View} (b : Buffer) (d : Debounce)
    (hsaved : s.buffer = b.markSaved) (hidle : s.debounce = d.clear) : s.Tracked := by
  constructor
  · rw [hsaved]
    exact Nat.le_refl _
  · rw [hsaved, hidle, Debounce.isPending_clear, Buffer.isDirty_markSaved]

/-- The patch of a change, with the buffer that it leaves: the edits are made
from what the form shows. -/
def patched (s : Session View) (change : Change) : Patch × Buffer :=
  s.buffer.apply (Document.splices s.text s.shown change)

theorem buffer_edit (s : Session View) (change : Change) (now : Nat) :
    (s.edit change now).2.buffer = (s.patched change).2 := rfl

theorem debounce_edit (s : Session View) (change : Change) (now : Nat) :
    (s.edit change now).2.debounce =
      if (s.patched change).1.isNoop then s.debounce else s.debounce.touch now := rfl

/-- A change of the form arms a save exactly when it moves the version. -/
theorem Tracked.edit {s : Session View} (h : s.Tracked) (change : Change) (now : Nat) :
    (s.edit change now).2.Tracked := by
  have hsaved := h.saved_le
  rcases Buffer.apply_cases s.buffer (Document.splices s.text s.shown change) with
    hsame | ⟨heffective, t, hbuffer⟩
  · apply h.congr
    · rw [buffer_edit, patched, hsame]
    · rw [debounce_edit, patched, hsame, Buffer.isNoop_noop, if_pos rfl]
  · apply tracked_of_touch s.debounce now
    · rw [buffer_edit, patched, hbuffer]
      exact Nat.lt_succ_of_le hsaved
    · rw [debounce_edit, patched, heffective]
      rfl

/-- A load from the store saves and disarms, every other load arms. -/
theorem Tracked.load {s : Session View} (h : s.Tracked) (t : Text) (source : LoadSource)
    (now : Nat) : (s.load t source now).2.Tracked := by
  have hsaved := h.saved_le
  by_cases hstorage : source = .storage
  · apply tracked_of_clear (s.buffer.replaceAll t).2 s.debounce
    · simp [Session.load, Session.refresh, Session.view, hstorage]
    · simp [Session.load, Session.refresh, Session.view, hstorage]
  · apply tracked_of_touch s.debounce now
    · simp [Session.load, Session.refresh, Session.view, hstorage, Buffer.replaceAll]
      omega
    · simp [Session.load, Session.refresh, Session.view, hstorage]

/-- A flush disarms what it saves, arms again what the store refuses, and
disarms a session that has nothing to save. -/
theorem Tracked.flush {s : Session View} (h : s.Tracked) (store : Store) (clock : Clock) :
    (s.flush store clock).2.1.Tracked := by
  cases hdirty : s.buffer.isDirty with
  | false =>
      constructor
      · simpa [Session.flush, Session.isDirty, hdirty] using h.saved_le
      · simp [Session.flush, Session.isDirty, hdirty]
  | true =>
      rcases hsave : store.save (Document.kind View) s.text clock.moment with
        ⟨outcome, store'⟩
      cases outcome with
      | ok saved =>
          apply tracked_of_clear s.buffer s.debounce
          · simp [Session.flush, Session.isDirty, hdirty, hsave]
          · simp [Session.flush, Session.isDirty, hdirty, hsave]
      | error refusal =>
          constructor
          · simpa [Session.flush, Session.isDirty, hdirty, hsave] using h.saved_le
          · simp [Session.flush, Session.isDirty, hdirty, hsave]

/-- Every call keeps deadline and saved version in agreement. -/
theorem preserved_tracked : Preserved fun s : Session View => s.Tracked where
  view _ h := h.view
  edit _ change now h := h.edit change now
  load _ t source now h := h.load t source now
  flush _ store clock h := h.flush store clock

/-- In either document, whatever happened since the start, a save is armed
exactly when the buffer has unsaved changes. -/
theorem savePending_run_eq_isDirty :
    (∀ (quiet : Nat) (t : Text) (actions : List (Action ConfigEdit)),
      let s := (start quiet t : Session ConfigView).run actions
      s.savePending = s.isDirty) ∧
    (∀ (quiet : Nat) (t : Text) (actions : List (Action Keywords.KeywordEdit)),
      let s := (start quiet t : Session Keywords.KeywordList).run actions
      s.savePending = s.isDirty) := by
  constructor
  · intro quiet t actions
    exact (preserved_tracked.run (tracked_start quiet t) actions).pending_eq
  · intro quiet t actions
    exact (preserved_tracked.run (tracked_start quiet t) actions).pending_eq

end Session

end Marginalia
