import Marginalia.Proofs.Session.Run
import Marginalia.Proofs.Store.Files

/-!
# What a flush does

A flush has nothing to do, or the store takes the text, or the store refuses it.
What it answers, what it leaves of the session and what it leaves of the store
is told for each of the three cases.
-/

namespace Marginalia

namespace Session

variable {View Change : Type} [Document View Change] {s : Session View} {store : Store}
  {clock : Clock}

/-- There are unsaved changes, and the store does not take them. -/
def Refused (s : Session View) (store : Store) (clock : Clock) : Prop :=
  s.isDirty = true ∧ (store.save (Document.kind View) s.text clock.moment).1 ≠ .ok ()

theorem flush_of_clean (h : s.isDirty = false) :
    s.flush store clock = (false, { s with debounce := s.debounce.clear }, store) := by
  simp [flush, h]

theorem flush_of_refused (h : s.Refused store clock) :
    s.flush store clock =
      (false, { s with debounce := s.debounce.touch clock.instant },
        (store.save (Document.kind View) s.text clock.moment).2) := by
  obtain ⟨hdirty, hrefused⟩ := h
  rcases hsave : store.save (Document.kind View) s.text clock.moment with ⟨outcome, left⟩
  rw [hsave] at hrefused
  cases outcome with
  | ok _ => exact absurd rfl hrefused
  | error fault => simp only [flush, hdirty, hsave, if_true]

theorem flush_of_taken (hdirty : s.isDirty = true) (h : ¬s.Refused store clock) :
    (store.save (Document.kind View) s.text clock.moment).1 = .ok () ∧
      s.flush store clock =
        (true, { s with buffer := s.buffer.markSaved, debounce := s.debounce.clear },
          (store.save (Document.kind View) s.text clock.moment).2) := by
  rcases hsave : store.save (Document.kind View) s.text clock.moment with ⟨outcome, left⟩
  cases outcome with
  | ok _ => exact ⟨rfl, by simp only [flush, hdirty, hsave, if_true]⟩
  | error fault => exact absurd ⟨hdirty, by simp [hsave]⟩ h

/-- A flush answers that it has saved when there were changes and the store took
them. -/
theorem flush_fst_iff :
    (s.flush store clock).1 = true ↔ s.isDirty = true ∧ ¬s.Refused store clock := by
  by_cases hrefused : s.Refused store clock
  · simp [flush_of_refused hrefused, hrefused]
  · cases hdirty : s.isDirty with
    | false => simp [flush_of_clean hdirty]
    | true => simp [(flush_of_taken hdirty hrefused).2, hrefused]

/-- What is left to be saved after a flush was refused. -/
theorem isDirty_flush_iff :
    (s.flush store clock).2.1.isDirty = true ↔ s.Refused store clock := by
  by_cases hrefused : s.Refused store clock
  · rw [flush_of_refused hrefused]
    exact iff_of_true hrefused.1 hrefused
  · cases hdirty : s.isDirty with
    | false =>
        rw [flush_of_clean hdirty]
        exact iff_of_false (fun h => absurd (hdirty.symm.trans h) (by decide)) hrefused
    | true =>
        rw [(flush_of_taken hdirty hrefused).2]
        exact iff_of_false (by simp [isDirty, Buffer.isDirty, Buffer.markSaved]) hrefused

theorem load_of_flush (h : (s.flush store clock).1 = true) :
    (s.flush store clock).2.2.load (Document.kind View) = .ok (some s.text) := by
  obtain ⟨hdirty, hrefused⟩ := flush_fst_iff.mp h
  obtain ⟨hsave, hflush⟩ := flush_of_taken hdirty hrefused
  rw [hflush]
  exact Store.load_of_save hsave

theorem load_flush_of_ne {kind : DocumentKind} {t : Text} (hne : kind ≠ Document.kind View)
    (h : store.load kind = .ok (some t)) :
    (s.flush store clock).2.2.load kind = .ok (some t) := by
  by_cases hrefused : s.Refused store clock
  · rw [flush_of_refused hrefused]
    exact Store.load_save_of_ne hne h _ _
  · cases hdirty : s.isDirty with
    | false =>
        rw [flush_of_clean hdirty]
        exact h
    | true =>
        rw [(flush_of_taken hdirty hrefused).2]
        exact Store.load_save_of_ne hne h _ _

end Session

end Marginalia
