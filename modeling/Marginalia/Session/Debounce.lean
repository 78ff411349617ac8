/-!
# Waiting for quiet

A debounce holds a deadline that each touch moves to a quiet period after it, so
what waits for the deadline happens once nothing was touched for that long.
Instants and periods count milliseconds.
-/

namespace Marginalia

/-- A quiet period, and the deadline that it was last counted to. -/
structure Debounce where
  quiet : Nat
  deadline : Option Nat
  deriving DecidableEq, Repr

namespace Debounce

def idle (quiet : Nat) : Debounce :=
  ⟨quiet, none⟩

/-- The quiet period of a debounce for which none was chosen. -/
def usualQuiet : Nat :=
  1000

/-- The deadline moved to a quiet period from now, even when it was later. -/
def touch (d : Debounce) (now : Nat) : Debounce :=
  { d with deadline := some (now + d.quiet) }

def clear (d : Debounce) : Debounce :=
  { d with deadline := none }

/-- There is a deadline. -/
def isPending (d : Debounce) : Bool :=
  d.deadline.isSome

def due (d : Debounce) (now : Nat) : Bool :=
  match d.deadline with
  | some deadline => decide (deadline ≤ now)
  | none => false

end Debounce

end Marginalia
