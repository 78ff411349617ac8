import Marginalia.Proofs.Session.Flush

/-!
# Waiting for the quiet period

What a session waits for is told by its past alone.  A change of the text arms
the wait at the instant of the call, a refused save arms it at the instant of
the refusal, and a save or a load from the store clears it.  `Session.Mark` is
what one call leaves of this in the past, if anything.  The deadline is a quiet
period behind the last instant at which the wait was armed, whether that instant
is later than the ones before it or not: `Session.Waits`, which every call
preserves.
-/

namespace Marginalia

namespace Session

/-- What a call does to the wait for a save. -/
inductive Mark where
  | armed (instant : Nat)
  | cleared
  deriving DecidableEq, Repr

/-- The instant at which the wait was armed last, unless it was cleared
since. -/
def lastArmed? (past : List Mark) : Option Nat :=
  match past.getLast? with
  | some (.armed instant) => some instant
  | _ => none

@[simp] theorem lastArmed?_concat_armed (past : List Mark) (instant : Nat) :
    lastArmed? (past ++ [.armed instant]) = some instant := by
  simp [lastArmed?]

@[simp] theorem lastArmed?_concat_cleared (past : List Mark) :
    lastArmed? (past ++ [.cleared]) = none := by
  simp [lastArmed?]

/-- The quiet period behind the last arming is over. -/
def IsQuiet (quiet : Nat) (past : List Mark) (now : Nat) : Prop :=
  ∃ instant ∈ lastArmed? past, instant + quiet ≤ now

instance (quiet : Nat) (past : List Mark) (now : Nat) : Decidable (IsQuiet quiet past now) :=
  inferInstanceAs (Decidable (∃ instant ∈ lastArmed? past, instant + quiet ≤ now))

variable {View Change : Type} [Document View Change]

/-- What a flush does to the wait: it starts again when the store refuses the
text. -/
def flushMark (s : Session View) (store : Store) (clock : Clock) : Mark :=
  if s.isDirty then
    match (store.save (Document.kind View) s.text clock.moment).1 with
    | .ok () => .cleared
    | .error _ => .armed clock.instant
  else .cleared

/-- What a call does to the wait, if anything, given the past before it.  A look
at the form, a change that leaves the text as it is and a failed fetch do
nothing; neither does a flush that is put off. -/
def mark? (quiet : Nat) (past : List Mark) (s : Session View) : Action Change → Option Mark
  | .view => none
  | .edit change now => if (s.edit change now).1.isNoop then none else some (.armed now)
  | .load _ source now => some (if source = .storage then .cleared else .armed now)
  | .fetch (.error _) _ => none
  | .fetch (.ok _) now => some (.armed now)
  | .flush store clock => some (s.flushMark store clock)
  | .flushIfDue now store clock =>
    if IsQuiet quiet past now then some (s.flushMark store clock) else none

def history (quiet : Nat) (past : List Mark) (s : Session View) :
    List (Action Change) → List Mark
  | [] => past
  | action :: actions =>
    history quiet (past ++ (mark? quiet past s action).toList) (s.perform action) actions

/-- A call at `now` hands the text to the store: whatever the store is, the call
answers whether the store saved the text, and leaves the store as the save left
it. -/
def Attempts (s : Session View) (now : Nat) : Prop :=
  ∀ (store : Store) (clock : Clock),
    (s.flushIfDue now store clock).1 =
        (store.save (Document.kind View) s.text clock.moment).1.isOk ∧
      (s.flushIfDue now store clock).2.2 =
        (store.save (Document.kind View) s.text clock.moment).2

/-- The session waits as its past tells: the text is handed to the store when it
has changes and the quiet period behind the last arming is over, and at no other
time. -/
structure WaitsForQuiet (quiet : Nat) (past : List Mark) (s : Session View) : Prop where
  attempts_iff (now : Nat) :
    s.Attempts now ↔ s.isDirty = true ∧ IsQuiet quiet past now
  /-- A flush that hands nothing to the store does nothing. -/
  put_off (now : Nat) (h : ¬s.Attempts now) (store : Store) (clock : Clock) :
    s.flushIfDue now store clock = (false, s, store)
  /-- What leaves no mark leaves the deadline. -/
  unmoved (action : Action Change) (h : mark? quiet past s action = none) :
    (s.perform action).debounce = s.debounce
  /-- What arms the wait replaces the deadline, even by an earlier one. -/
  replaced (action : Action Change) (instant : Nat)
    (h : mark? quiet past s action = some (.armed instant)) :
    (s.perform action).debounce.deadline = some (instant + quiet)

end Session

namespace Debounce

def after (d : Debounce) : Session.Mark → Debounce
  | .armed instant => d.touch instant
  | .cleared => d.clear

end Debounce

namespace Session

variable {View Change : Type} [Document View Change] {quiet : Nat} {past : List Mark}
  {s : Session View} {store : Store} {clock : Clock}

/-! ## What one call does -/

theorem debounce_flush (s : Session View) (store : Store) (clock : Clock) :
    (s.flush store clock).2.1.debounce = s.debounce.after (s.flushMark store clock) := by
  unfold Session.flush flushMark
  rcases store.save (Document.kind View) s.text clock.moment with ⟨outcome | outcome, left⟩ <;>
    cases s.isDirty <;> rfl

theorem debounce_load (s : Session View) (t : Text) (source : LoadSource) (now : Nat) :
    (s.load t source now).2.debounce =
      s.debounce.after (if source = .storage then .cleared else .armed now) := by
  by_cases hstorage : source = .storage
  · simp [Session.load, Session.refresh, Session.view, hstorage, Debounce.after]
  · simp [Session.load, Session.refresh, Session.view, hstorage, Debounce.after]

structure Waits (quiet : Nat) (past : List Mark) (s : Session View) : Prop where
  debounce_eq : s.debounce = ⟨quiet, (lastArmed? past).map (· + quiet)⟩
  tracked : s.Tracked

theorem Waits.due_iff (h : Waits quiet past s) (now : Nat) :
    s.debounce.due now = true ↔ IsQuiet quiet past now := by
  rw [h.debounce_eq, Debounce.due, IsQuiet]
  cases lastArmed? past <;> simp

/-- A flush for which the quiet period is over finds changes. -/
theorem Waits.isDirty_of_isQuiet (h : Waits quiet past s) {now : Nat}
    (hquiet : IsQuiet quiet past now) : s.isDirty = true := by
  obtain ⟨instant, harmed, -⟩ := hquiet
  rw [isDirty, ← h.tracked.pending_eq, h.debounce_eq, Debounce.isPending,
    Option.mem_def.mp harmed]
  rfl

theorem Waits.debounce_perform (h : Waits quiet past s) (action : Action Change) :
    (s.perform action).debounce =
      ((mark? quiet past s action).map s.debounce.after).getD s.debounce := by
  cases action with
  | view => rfl
  | edit change now =>
      have hpatch : (s.edit change now).1 = (s.patched change).1 := rfl
      rw [perform, mark?, debounce_edit, hpatch]
      cases (s.patched change).1.isNoop <;> rfl
  | load t source now => exact s.debounce_load t source now
  | fetch outcome now =>
      cases outcome with
      | error e => rfl
      | ok t => exact s.debounce_load t .remote now
  | flush store clock => exact s.debounce_flush store clock
  | flushIfDue now store clock =>
      simp only [perform, mark?, flushIfDue]
      by_cases hquiet : IsQuiet quiet past now
      · rw [if_pos ((h.due_iff now).mpr hquiet), if_pos hquiet]
        exact s.debounce_flush store clock
      · rw [if_neg (mt (h.due_iff now).mp hquiet), if_neg hquiet]
        rfl

/-! ## What a run does -/

theorem waits_start (quiet : Nat) (t : Text) : Waits quiet [] (start quiet t : Session View) :=
  ⟨rfl, tracked_start quiet t⟩

/-- Every call leaves a session that waits for what its past then tells. -/
theorem Waits.perform (h : Waits quiet past s) (action : Action Change) :
    Waits quiet (past ++ (mark? quiet past s action).toList) (s.perform action) := by
  refine ⟨?_, preserved_tracked.perform h.tracked action⟩
  rw [h.debounce_perform action]
  cases hmark : mark? quiet past s action with
  | none =>
      rw [Option.toList_none, List.append_nil]
      exact h.debounce_eq
  | some mark =>
      rw [Option.toList_some, Option.map_some, Option.getD_some, h.debounce_eq]
      cases mark with
      | armed instant => simp [Debounce.after, Debounce.touch]
      | cleared => simp [Debounce.after, Debounce.clear]

theorem Waits.run (h : Waits quiet past s) (actions : List (Action Change)) :
    Waits quiet (history quiet past s actions) (s.run actions) := by
  -- The marks so far and those that the calls still to come will leave make up
  -- the history.
  obtain ⟨past', hwaits, hpast⟩ := run_preserves
    (Q := fun rest s' => ∃ past', Waits quiet past' s' ∧
      history quiet past' s' rest = history quiet past s actions)
    (fun action _ _ ⟨_, hwaits, hpast⟩ => ⟨_, hwaits.perform action, hpast⟩) ⟨past, h, rfl⟩
  exact hpast ▸ hwaits

/-! ## When the text is handed to the store -/

def openStore : Store :=
  ⟨"/s".toList, [], ⟨[([], .directory), ([['s']], .directory)]⟩⟩

theorem save_openStore (kind : DocumentKind) (t : Text) (at_ : Moment) :
    (openStore.save kind t at_).1 = .ok () := by
  cases kind <;> rfl

theorem Waits.flushIfDue_of_not_isQuiet (h : Waits quiet past s) {now : Nat}
    (hquiet : ¬IsQuiet quiet past now) (store : Store) (clock : Clock) :
    s.flushIfDue now store clock = (false, s, store) :=
  if_neg (mt (h.due_iff now).mp hquiet)

theorem Waits.attempts_of_isQuiet (h : Waits quiet past s) {now : Nat}
    (hquiet : IsQuiet quiet past now) : s.Attempts now := by
  intro store clock
  have hdirty := h.isDirty_of_isQuiet hquiet
  have hflush : s.flushIfDue now store clock = s.flush store clock :=
    if_pos ((h.due_iff now).mpr hquiet)
  rw [hflush]
  by_cases hrefused : s.Refused store clock
  · rw [flush_of_refused hrefused]
    refine ⟨?_, rfl⟩
    cases hsave : (store.save (Document.kind View) s.text clock.moment).1 with
    | ok _ => exact absurd hsave hrefused.2
    | error fault => rfl
  · obtain ⟨hsave, hflush⟩ := flush_of_taken hdirty hrefused
    rw [hflush, hsave]
    exact ⟨rfl, rfl⟩

theorem Waits.attempts_iff (h : Waits quiet past s) (now : Nat) :
    s.Attempts now ↔ IsQuiet quiet past now := by
  refine ⟨fun hattempts => ?_, h.attempts_of_isQuiet⟩
  by_contra hquiet
  -- a store that takes the text tells a save from a flush that is put off
  have hanswer := (hattempts openStore ⟨0, ⟨⟨2026, 1, 2⟩, 3, 4, 5, 0⟩⟩).1
  rw [h.flushIfDue_of_not_isQuiet hquiet, save_openStore] at hanswer
  cases hanswer

theorem Waits.waitsForQuiet (h : Waits quiet past s) : s.WaitsForQuiet quiet past where
  attempts_iff now := by
    rw [h.attempts_iff now]
    exact ⟨fun hquiet => ⟨h.isDirty_of_isQuiet hquiet, hquiet⟩, And.right⟩
  put_off now hnot := h.flushIfDue_of_not_isQuiet (mt (h.attempts_iff now).mpr hnot)
  unmoved action hmark := by
    rw [h.debounce_perform action, hmark]
    rfl
  replaced action instant hmark := by
    rw [h.debounce_perform action, hmark, h.debounce_eq]
    rfl

/-- In either document, whatever happened since the start, a flush that waits
for the quiet period hands the text to the store exactly when there are changes
and the period behind the last arming is over.  What the past of a session is
made of does not depend on its deadline. -/
theorem waitsForQuiet_run :
    (∀ (quiet : Nat) (t : Text) (actions : List (Action ConfigEdit)),
      let s : Session ConfigView := start quiet t
      (s.run actions).WaitsForQuiet quiet (history quiet [] s actions)) ∧
    (∀ (quiet : Nat) (t : Text) (actions : List (Action Keywords.KeywordEdit)),
      let s : Session Keywords.KeywordList := start quiet t
      (s.run actions).WaitsForQuiet quiet (history quiet [] s actions)) := by
  constructor
  · intro quiet t actions
    exact ((waits_start quiet t).run actions).waitsForQuiet
  · intro quiet t actions
    exact ((waits_start quiet t).run actions).waitsForQuiet

end Session

end Marginalia
