import PFunc.Atomics

/-! # The two words of an event -/
namespace PFunc.Event

open Atomics

def inactive : Word := 0
def activeIncomplete : Word := 1
def activeComplete : Word := 2

theorem complete_ne_incomplete : activeComplete ≠ activeIncomplete := by decide

theorem complete_ne_inactive : activeComplete ≠ inactive := by decide

theorem inactive_ne_incomplete : inactive ≠ activeIncomplete := by decide

/-- `event_base`: the state and the number of completion notices still to be taken. -/
structure EventBase where
  eventState : Word
  numWaiters : Word
  deriving DecidableEq

namespace EventBase

def new : EventBase := ⟨inactive, 1⟩

def reset (nwait : Word) : EventBase := ⟨activeIncomplete, nwait⟩

/-- The store (or exchange) that announces completion. -/
def complete (e : EventBase) : EventBase := { e with eventState := activeComplete }

def deactivate (e : EventBase) : EventBase := { e with eventState := inactive }

/-- `pfunc_fetch_and_add_32 (&num_waiters, -1)`: the new event and the old count. -/
def takeNotice (e : EventBase) : EventBase × Word :=
  let r := fetchAndAdd e.numWaiters (-1)
  ({ e with numWaiters := r.1 }, r.2)

/-- The program points of `test`, each before one access to the event. -/
inductive TestPc where
  | incomplete
  | inactive
  | decrement
  | deactivate
  deriving DecidableEq

/-- The next access of `test`: where the call is then, or what it returns. -/
def test (e : EventBase) : TestPc → EventBase × (TestPc ⊕ Bool)
  | .incomplete => (e, if e.eventState = activeIncomplete then .inr false else .inl .inactive)
  | .inactive => (e, if e.eventState = Event.inactive then .inr true else .inl .decrement)
  | .decrement =>
    let r := e.takeNotice
    (r.1, if r.2 = 1 then .inl .deactivate else .inr true)
  | .deactivate => (e.deactivate, .inr true)

/-- At most `k` accesses of a call of `test`, with none of another thread in between. -/
def accesses : ℕ → EventBase → TestPc → EventBase × (TestPc ⊕ Bool)
  | 0, e, pc => (e, .inl pc)
  | k + 1, e, pc =>
    match (e.test pc).2 with
    | .inl pc' => accesses k (e.test pc).1 pc'
    | .inr b => ((e.test pc).1, .inr b)

/-- A call of `test` that nobody interrupts. -/
def testAlone (e : EventBase) : EventBase × Bool :=
  if e.eventState = activeIncomplete then (e, false)
  else if e.eventState = Event.inactive then (e, true)
  else
    let r := e.takeNotice
    (if r.2 = 1 then r.1.deactivate else r.1, true)

@[simp] theorem reset_eventState (n : Word) : (reset n).eventState = activeIncomplete := rfl

@[simp] theorem complete_eventState (e : EventBase) : e.complete.eventState = activeComplete := rfl

@[simp] theorem deactivate_eventState (e : EventBase) : e.deactivate.eventState = inactive := rfl

@[simp] theorem takeNotice_eventState (e : EventBase) :
    e.takeNotice.1.eventState = e.eventState := by
  cases e
  rfl

theorem accesses_testAlone (e : EventBase) :
    accesses 4 e .incomplete = (e.testAlone.1, .inr e.testAlone.2) := by
  unfold testAlone
  split
  next h => simp [accesses, test, h]
  next h =>
    split
    next hi => simp [accesses, test, hi, inactive_ne_incomplete]
    next hi => by_cases hr : e.takeNotice.2 = 1#32 <;> simp [accesses, test, h, hi, hr]

/-- Past its first check, `test` leaves an event incomplete or not as it was. -/
theorem test_incomplete_iff {e : EventBase} {pc : TestPc}
    (h : pc ≠ .incomplete → e.eventState ≠ activeIncomplete) :
    (e.test pc).1.eventState = activeIncomplete ↔ e.eventState = activeIncomplete := by
  cases pc with
  | incomplete => rfl
  | inactive => rfl
  | decrement =>
    change e.takeNotice.1.eventState = activeIncomplete ↔ _
    rw [takeNotice_eventState]
  | deactivate =>
    have hne : Event.inactive ≠ activeIncomplete := by decide
    exact iff_of_false hne (h (by simp))

/-- Only the first check of an incomplete event is answered by false, and at once. -/
theorem test_result {e : EventBase} {pc : TestPc} :
    (e.test pc).2 = .inr false ↔ pc = .incomplete ∧ e.eventState = activeIncomplete := by
  cases pc with
  | incomplete => simp [test]
  | inactive => by_cases h : e.eventState = Event.inactive <;> simp [test, h]
  | decrement =>
    simp only [test]
    split <;> simp
  | deactivate => simp [test]

theorem test_goes_on {e : EventBase} {pc : TestPc} (h : (e.test pc).2 ≠ .inr false)
    (hpc : pc ≠ .incomplete → e.eventState ≠ activeIncomplete) :
    e.eventState ≠ activeIncomplete := by
  intro he
  have hp : pc = .incomplete := by
    by_contra hne
    exact hpc hne he
  exact h (test_result.mpr ⟨hp, he⟩)

end EventBase

end PFunc.Event
