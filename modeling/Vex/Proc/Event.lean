import Mathlib.Tactic.Common

/-! Events (`event.c`): the threads that listen, and the wakeups kept for threads still to come.
Each function here is what its namesake does under the event's lock. A thread that listens is off
the run queue until a trigger takes it off the list. -/

namespace Vex.Proc

abbrev UINT32_MAX : Nat := 4294967295

/-- `event_t`, with the thread of each listener. -/
structure Event (T : Type) where
  numPending : Nat
  listeners : List T
  deriving DecidableEq, Repr

namespace Event

variable {T : Type}

/-- `event_init`. -/
def init : Event T := { numPending := 0, listeners := [] }

/-- `event_await` takes a pending wakeup, if there is one. -/
def await (e : Event T) : Option (Event T) :=
  if e.numPending > 0 then some { e with numPending := e.numPending - 1 } else none

/-- The thread becomes a listener in `await_until`. -/
def listen (e : Event T) (thread : T) : Event T :=
  { e with listeners := e.listeners ++ [thread] }

/-- A listener that nobody woke takes itself off the list at the end of `await_until`. -/
def leave [DecidableEq T] (e : Event T) (thread : T) : Event T :=
  { e with listeners := e.listeners.filter (· ≠ thread) }

def trigger (e : Event T) (maxPending : Nat) : Event T :=
  if e.listeners = [] then
    { e with numPending := if e.numPending < maxPending then e.numPending + 1 else e.numPending }
  else { e with listeners := [] }

variable {e e' : Event T} {t u : T}

theorem await_cases (h : e.await = some e') :
    0 < e.numPending ∧ e' = { e with numPending := e.numPending - 1 } := by
  obtain ⟨hpos, heq⟩ := Option.ite_none_right_eq_some.mp h
  exact ⟨hpos, (Option.some.inj heq).symm⟩

theorem await_eq_none : e.await = none ↔ e.numPending = 0 := by
  simp [await, Nat.pos_iff_ne_zero]

theorem mem_listen : u ∈ (e.listen t).listeners ↔ u ∈ e.listeners ∨ u = t := by
  simp [listen]

theorem trigger_listeners (e : Event T) (maxPending : Nat) :
    (e.trigger maxPending).listeners = [] := by
  unfold trigger
  split
  case isTrue h => exact h
  case isFalse => rfl

theorem trigger_pending (h : e.listeners = []) (hmax : 0 < maxPending) :
    0 < (e.trigger maxPending).numPending := by
  simp only [trigger, if_pos h]
  split <;> omega

end Event

end Vex.Proc
