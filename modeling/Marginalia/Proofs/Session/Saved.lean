import Marginalia.Proofs.Session.Rendered
import Marginalia.Proofs.Store.Files

/-!
# What counts as saved is stored

A session stands beside a store that its flushes write to, and that the other
document is saved to as well.  `Session.Reaches` is what they may become: calls
that find the store as it is, a load from the store being given what the store
has, saves of the other document, and whatever else happens to the directory as
long as it leaves the stored text of a saved document alone.

A save writes its document before the times of saving, so a save that fails may
have stored the text and yet not count, and a text that counts as saved is
always the stored one: `Session.stored_of_reaches`.
-/

namespace Marginalia

namespace Session

variable {View Change : Type} [Document View Change]

/-- The store holds the text of the session as the last saved one. -/
def Stored (s : Session View) (store : Store) : Prop :=
  store.load (Document.kind View) = .ok (some s.text)

/-- The call finds the store as it is: a flush writes to it, and a load from the
store is given the text that it has. -/
def Finds (View : Type) {Change : Type} [Document View Change] (store : Store) :
    Action Change → Prop
  | .load t source _ => source = .storage → store.load (Document.kind View) = .ok (some t)
  | .flush found _ => found = store
  | .flushIfDue _ found _ => found = store
  | _ => True

def storeAfter (s : Session View) (store : Store) : Action Change → Store
  | .flush found clock => (s.flush found clock).2.2
  | .flushIfDue now found clock => (s.flushIfDue now found clock).2.2
  | _ => store

/-- The call saved the text or loaded it from the store. -/
def settles (s : Session View) : Action Change → Bool
  | .load _ source _ => decide (source = .storage)
  | .flush found clock => (s.flush found clock).1
  | .flushIfDue now found clock => (s.flushIfDue now found clock).1
  | _ => false

/-- What a session that starts with any text beside any store may become,
together with the store and whether the text was ever saved or loaded from the
store. -/
inductive Reaches : Session View → Store → Bool → Prop
  | start (quiet : Nat) (t : Text) (store : Store) : Reaches (start quiet t) store false
  | call {s : Session View} {store : Store} {settled : Bool} (h : Reaches s store settled)
      (action : Action Change) (hfinds : Finds View store action) :
      Reaches (s.perform action) (s.storeAfter store action) (settled || s.settles action)
  /-- Another document is saved, perhaps in vain. -/
  | saveOther {s : Session View} {store : Store} {settled : Bool} (h : Reaches s store settled)
      (other : DocumentKind) (hother : other ≠ Document.kind View) (t : Text) (at_ : Moment) :
      Reaches s (store.save other t at_).2 settled
  /-- Something else happens to the directory; while the text is unsaved it may
  be anything, as a save that is cut short may leave anything. -/
  | disturb {s : Session View} {store store' : Store} {settled : Bool}
      (h : Reaches s store settled)
      (hkeeps : s.isDirty = false → s.Stored store → s.Stored store') : Reaches s store' settled

variable {s s' : Session View} {store : Store} {settled : Bool}

/-- Once the text was saved or loaded from the store, it is stored whenever it
counts as saved. -/
structure Safe (s : Session View) (store : Store) (settled : Bool) : Prop where
  saved_le : s.buffer.savedVersion ≤ s.buffer.version
  stored : settled = true → s.isDirty = false → s.Stored store

/-- Only the buffer counts. -/
theorem Safe.congr (h : Safe s store settled) (hbuffer : s'.buffer = s.buffer) :
    Safe s' store settled := by
  constructor
  · rw [hbuffer]
    exact h.saved_le
  · rw [isDirty, Stored, text, hbuffer]
    exact h.stored

/-- A session whose version moved past the saved one. -/
theorem safe_of_isDirty (hsaved : s.buffer.savedVersion < s.buffer.version) (store : Store)
    (settled : Bool) : Safe s store settled := by
  constructor
  · exact Nat.le_of_lt hsaved
  · intro _ hclean
    rw [isDirty, Buffer.isDirty_of_savedVersion_lt hsaved] at hclean
    cases hclean

/-- A session whose text was just saved, or loaded from the store. -/
theorem safe_of_stored {b : Buffer} (hsaved : s.buffer = b.markSaved) (hstored : s.Stored store)
    (settled : Bool) : Safe s store settled := by
  constructor
  · rw [hsaved]
    exact Nat.le_refl _
  · intro _ _
    exact hstored

theorem Safe.edit (h : Safe s store settled) (change : Change) (now : Nat) :
    Safe (s.edit change now).2 store settled := by
  rcases Buffer.apply_cases s.buffer (Document.splices s.text s.shown change) with
    hsame | ⟨-, t, hbuffer⟩
  · apply h.congr
    rw [buffer_edit, patched, hsame]
  · apply safe_of_isDirty
    rw [buffer_edit, patched, hbuffer]
    exact Nat.lt_succ_of_le h.saved_le

/-- A load from the store is given the stored text; any other load leaves
something to save. -/
theorem Safe.load (h : Safe s store settled) (t : Text) (source : LoadSource) (now : Nat)
    (hfinds : source = .storage → store.load (Document.kind View) = .ok (some t))
    (settled' : Bool) : Safe (s.load t source now).2 store settled' := by
  by_cases hstorage : source = .storage
  · apply safe_of_stored (b := (s.buffer.replaceAll t).2)
    · simp [Session.load, Session.refresh, Session.view, hstorage]
    · rw [Stored, text_load]
      exact hfinds hstorage
  · apply safe_of_isDirty
    have hle := h.saved_le
    simp [Session.load, Session.refresh, Session.view, hstorage, Buffer.replaceAll]
    omega

/-- A flush has nothing to do, or saves the text, or fails and leaves it to be
saved. -/
theorem flush_cases (s : Session View) (store : Store) (clock : Clock) :
    (∃ d, s.flush store clock = (false, { s with debounce := d }, store)) ∨
      (∃ written d, store.save (Document.kind View) s.text clock.moment = (.ok (), written) ∧
        s.flush store clock =
          (true, { s with buffer := s.buffer.markSaved, debounce := d }, written)) ∨
      (s.isDirty = true ∧
        ∃ left d, s.flush store clock = (false, { s with debounce := d }, left)) := by
  rcases hsave : store.save (Document.kind View) s.text clock.moment with ⟨outcome, written⟩
  unfold Session.flush
  rw [hsave]
  split
  · next hdirty =>
      cases outcome with
      | ok _ => exact Or.inr (Or.inl ⟨written, _, rfl, rfl⟩)
      | error e => exact Or.inr (Or.inr ⟨hdirty, written, _, rfl⟩)
  · exact Or.inl ⟨_, rfl⟩

/-- A flush that saves has stored the text; one that fails leaves it to be
saved, whatever became of the file. -/
theorem Safe.flush (h : Safe s store settled) (clock : Clock) :
    Safe (s.flush store clock).2.1 (s.flush store clock).2.2
      (settled || (s.flush store clock).1) := by
  rcases flush_cases s store clock with
    ⟨d, hflush⟩ | ⟨written, d, hsave, hflush⟩ | ⟨hdirty, left, d, hflush⟩
  · rw [hflush, Bool.or_false]
    exact h.congr rfl
  · have hstored : ({ s with buffer := s.buffer.markSaved, debounce := d } : Session View).Stored
        written := by
      have hloaded := Store.load_of_save (congrArg Prod.fst hsave)
      rwa [hsave] at hloaded
    rw [hflush]
    exact safe_of_stored rfl hstored _
  · rw [hflush]
    refine ⟨h.saved_le, fun _ hclean => ?_⟩
    have hstill : s.isDirty = false := hclean
    rw [hdirty] at hstill
    cases hstill

theorem Safe.perform (h : Safe s store settled) (action : Action Change)
    (hfinds : Finds View store action) :
    Safe (s.perform action) (s.storeAfter store action) (settled || s.settles action) := by
  -- a call that neither saves nor loads from the store leaves the mark as it is
  have hunmarked : ∀ {s' : Session View},
      Safe s' store settled → Safe s' store (settled || false) := by
    intro s' hs'
    rwa [Bool.or_false]
  cases action with
  | view => exact hunmarked (h.congr rfl)
  | edit change now => exact hunmarked (h.edit change now)
  | load t source now => exact h.load t source now hfinds _
  | fetch outcome now =>
      cases outcome with
      | error e => exact hunmarked h
      | ok t => exact hunmarked (h.load t .remote now (fun hsource => nomatch hsource) settled)
  | flush found clock =>
      obtain rfl : found = store := hfinds
      exact h.flush clock
  | flushIfDue now found clock =>
      obtain rfl : found = store := hfinds
      by_cases hdue : s.debounce.due now
      · have hflush : s.flushIfDue now found clock = s.flush found clock := if_pos hdue
        simp only [Session.perform, storeAfter, settles, hflush]
        exact h.flush clock
      · have hflush : s.flushIfDue now found clock = (false, s, found) := if_neg hdue
        simp only [Session.perform, storeAfter, settles, hflush]
        exact hunmarked h

theorem Reaches.safe (h : Reaches s store settled) : Safe s store settled := by
  induction h with
  | start quiet t store => exact ⟨Nat.le_refl 0, by simp⟩
  | call h action hfinds ih => exact ih.perform action hfinds
  | saveOther h other hother t at_ ih =>
      refine ⟨ih.saved_le, fun hsettled hclean => ?_⟩
      exact Store.load_save_of_ne hother.symm (ih.stored hsettled hclean) t at_
  | disturb h hkeeps ih =>
      exact ⟨ih.saved_le, fun hsettled hclean => hkeeps hclean (ih.stored hsettled hclean)⟩

/-- A flush that leaves the text to be saved may be followed by another one,
whatever happened to the directory in between. -/
theorem Reaches.retried (h : Reaches s store settled) (clock : Clock) (store' : Store)
    (hdirty : (s.flush store clock).2.1.isDirty = true)
    (hsaved : ((s.flush store clock).2.1.flush store' clock).1 = true) :
    Reaches ((s.flush store clock).2.1.flush store' clock).2.1
      ((s.flush store clock).2.1.flush store' clock).2.2 true := by
  have hdisturbed : Reaches (s.perform (.flush store clock)) store'
      (settled || s.settles (.flush store clock)) :=
    (h.call (.flush store clock) rfl).disturb fun hclean => by
      rw [perform, hdirty] at hclean
      cases hclean
  have hmark : (settled || s.settles (.flush store clock) ||
      (s.perform (.flush store clock)).settles (.flush store' clock)) = true := by
    simp [settles, perform, hsaved]
  have hflushed := hdisturbed.call (.flush store' clock) rfl
  rw [hmark] at hflushed
  exact hflushed

/-- In either document, once a flush has saved or the text was loaded from the
store, the store holds the text whenever the session counts it as saved. -/
theorem stored_of_reaches :
    (∀ (s : Session ConfigView) (store : Store), Reaches s store true → s.isDirty = false →
      store.load .config = .ok (some s.text)) ∧
    (∀ (s : Session Keywords.KeywordList) (store : Store), Reaches s store true →
      s.isDirty = false → store.load .keywords = .ok (some s.text)) := by
  constructor
  · intro s store h hclean
    exact h.safe.stored rfl hclean
  · intro s store h hclean
    exact h.safe.stored rfl hclean

/-- A save that fails behind the document, as the times of saving cannot be
read, a second one after they were taken away, and a save of the other
document. -/
theorem stored_of_reaches_retried :
    ∃ (s : Session ConfigView) (found found' : Store) (clock : Clock),
      let failed := s.flush found clock
      let saved := failed.2.1.flush found' clock
      let store := (saved.2.2.save .keywords ['c'] clock.moment).2
      failed.1 = false ∧ saved.1 = true ∧ Reaches saved.2.1 store true ∧
        saved.2.1.isDirty = false ∧ store.load .config = .ok (some saved.2.1.text) := by
  let clock : Clock := ⟨0, ⟨⟨2026, 1, 2⟩, 3, 4, 5, 0⟩⟩
  let unreadable : Store := ⟨"/s".toList, [], ⟨[([], .directory), ([['s']], .directory),
    ([['s'], Store.stateFile], .file ['['])]⟩⟩
  let cleared : Store := ⟨"/s".toList, [], ⟨[([], .directory), ([['s']], .directory)]⟩⟩
  let s : Session ConfigView := ((start 1000 ['a']).load ['b'] .drop 0).2
  have hloaded : Reaches s unreadable false :=
    (Reaches.start 1000 ['a'] unreadable).call (.load ['b'] .drop 0) fun hsource => nomatch hsource
  have hdirty : (s.flush unreadable clock).2.1.isDirty = true := by decide +kernel
  have hsaved : ((s.flush unreadable clock).2.1.flush cleared clock).1 = true := by decide +kernel
  have hclean : ((s.flush unreadable clock).2.1.flush cleared clock).2.1.isDirty = false := by
    decide +kernel
  have hreached := (hloaded.retried clock cleared hdirty hsaved).saveOther .keywords (by decide)
    ['c'] clock.moment
  refine ⟨s, unreadable, cleared, clock, by decide +kernel, hsaved, hreached, hclean, ?_⟩
  exact stored_of_reaches.1 _ _ hreached hclean

end Session

end Marginalia
