import PFunc.Headcounts
import PFunc.Monitors

/-!
# The condition variable on Windows

The Windows build of `pfunc::detail::cond` makes a condition variable of a critical section, a
semaphore and an event that resets itself, for callers that hold the mutex. The mutex is a
Windows mutex. A thread at a semaphore, at the event or at a lock moves when it gets what it
waits for; `SignalObjectAndWait` signals and then waits, in two steps.

This is the build with `PFUNC_USE_EXCEPTIONS`: a call whose `ReleaseSemaphore` fails throws, the
exception ends the program of its thread, and what the thread has locked stays locked. (Without
it the call returns, out of `broadcast` with the critical section entered, and the program goes
on as if it had succeeded.) No other Windows call fails. The `int` and `LONG` counters count
threads and do not overflow.
-/

namespace PFunc.WindowsCond

open LabelledRuns Locks Headcounts Monitors

/-- `MAX_COUNT` -/
def maxCount : ℕ := 1024

/-- Program points; inside a call `c` is the point of the call. -/
inductive Pc (C : Type) where
  | at (c : C)
  /-- `wait`, from here to `relocking` -/
  | waitEnter (c : C)
  | incrementing (c : C)
  | incremented (c : C)
  /-- about to release the mutex -/
  | releasing (c : C)
  /-- on the semaphore -/
  | queued (c : C)
  | wokenEnter (c : C)
  | decrementing (c : C)
  | decremented (lastWaiter : Bool) (c : C)
  /-- about to signal `all_awake_event` -/
  | lastOut (c : C)
  | relocking (c : C)
  /-- `signal`, from here to `posting` -/
  | signalEnter (c : C)
  | signalTest (c : C)
  | signalLeave (waitersPresent : Bool) (c : C)
  | posting (c : C)
  /-- `broadcast`, from here to `clearing` -/
  | broadcastEnter (c : C)
  | broadcastTest (c : C)
  | broadcastLeave (c : C)
  | marking (c : C)
  | postingAll (c : C)
  | postedAll (c : C)
  | awaiting (c : C)
  /-- about to reset `was_broadcast`, without the critical section -/
  | clearing (c : C)
  /-- an exception has left `signal`, or `broadcast` and then from inside the critical section,
  and has ended the thread -/
  | thrown (inside : Bool) (c : C)
  deriving DecidableEq

structure State (P σ C : Type) where
  shared : σ
  mtx : Option P
  numWaiters : ℕ
  numWaitersLock : Option P
  /-- the count of the semaphore -/
  threadQueue : ℕ
  allAwakeEvent : Bool
  wasBroadcast : Bool
  pc : P → Pc C

variable {P σ C : Type} [DecidableEq P] (K : Program P σ C)

namespace State

variable (s : State P σ C) (p : P)

def goto (c : Pc C) : State P σ C := { s with pc := Function.update s.pc p c }

/-- `EnterCriticalSection` -/
def enter (c : Pc C) : Option (State P σ C) :=
  if s.numWaitersLock = none then some { s.goto p c with numWaitersLock := some p } else none

/-- `LeaveCriticalSection` -/
def leave (c : Pc C) : State P σ C := { s.goto p c with numWaitersLock := none }

/-- `WaitForSingleObject` on the mutex -/
def lock (c : Pc C) : Option (State P σ C) :=
  if s.mtx = none then some { s.goto p c with mtx := some p } else none

/-- `ReleaseSemaphore`, which fails if the count would exceed `MAX_COUNT`. -/
def release (n : ℕ) (c failed : Pc C) : State P σ C :=
  if s.threadQueue + n ≤ maxCount then { s.goto p c with threadQueue := s.threadQueue + n }
  else s.goto p failed

end State

/-- The next step of one thread. -/
def step (s : State P σ C) (p : P) : Option (State P σ C) :=
  match s.pc p with
  | .at c =>
    match K.op c with
    | .update f => some { s.goto p (.at (f p s.shared).2) with shared := (f p s.shared).1 }
    | .lock => s.lock p (.at (K.next c))
    | .unlock => some { s.goto p (.at (K.next c)) with mtx := none }
    | .wait => some (s.goto p (.waitEnter c))
    | .signal => some (s.goto p (.signalEnter c))
    | .broadcast => some (s.goto p (.broadcastEnter c))
  | .waitEnter c => s.enter p (.incrementing c)
  | .incrementing c => some { s.goto p (.incremented c) with numWaiters := s.numWaiters + 1 }
  | .incremented c => some (s.leave p (.releasing c))
  | .releasing c => some { s.goto p (.queued c) with mtx := none }
  | .queued c =>
    if 0 < s.threadQueue then
      some { s.goto p (.wokenEnter c) with threadQueue := s.threadQueue - 1 }
    else none
  | .wokenEnter c => s.enter p (.decrementing c)
  | .decrementing c =>
    let n := s.numWaiters - 1
    some { s.goto p (.decremented (s.wasBroadcast && n == 0) c) with numWaiters := n }
  | .decremented lastWaiter c => some (s.leave p (if lastWaiter then .lastOut c else .relocking c))
  | .lastOut c => some { s.goto p (.relocking c) with allAwakeEvent := true }
  | .relocking c => s.lock p (.at (K.next c))
  | .signalEnter c => s.enter p (.signalTest c)
  | .signalTest c => some (s.goto p (.signalLeave (0 < s.numWaiters) c))
  | .signalLeave waitersPresent c =>
    some (s.leave p (if waitersPresent then .posting c else .at (K.next c)))
  | .posting c => some (s.release p 1 (.at (K.next c)) (.thrown false c))
  | .broadcastEnter c => s.enter p (.broadcastTest c)
  | .broadcastTest c =>
    some (s.goto p (if 0 < s.numWaiters then .marking c else .broadcastLeave c))
  | .broadcastLeave c => some (s.leave p (.at (K.next c)))
  | .marking c => some { s.goto p (.postingAll c) with wasBroadcast := true }
  | .postingAll c => some (s.release p s.numWaiters (.postedAll c) (.thrown true c))
  | .postedAll c => some (s.leave p (.awaiting c))
  | .awaiting c =>
    if s.allAwakeEvent then some { s.goto p (.clearing c) with allAwakeEvent := false } else none
  | .clearing c => some { s.goto p (.at (K.next c)) with wasBroadcast := false }
  | .thrown _ _ => none

def system (shared : σ) : System (State P σ C) P where
  initial := ⟨shared, none, 0, none, 0, false, false, fun _ => .at K.start⟩
  step := step K

/-! ### What a program point has -/

namespace Pc

/-- The mutex. -/
def holds : Pc C → Bool
  | .at c => K.holds c
  | .queued _ | .wokenEnter _ | .decrementing _ | .decremented _ _ | .lastOut _
  | .relocking _ => false
  | _ => true

/-- The critical section. -/
def inside : Pc C → Bool
  | .incrementing _ | .incremented _ | .decrementing _ | .decremented _ _ | .signalTest _
  | .signalLeave _ _ | .broadcastTest _ | .broadcastLeave _ | .marking _ | .postingAll _
  | .postedAll _ => true
  | .thrown inside _ => inside
  | _ => false

/-- A share of `num_waiters`. -/
def counted : Pc C → Bool
  | .incremented _ | .releasing _ | .queued _ | .wokenEnter _ | .decrementing _ => true
  | _ => false

def isQueued : Pc C → Bool
  | .queued _ => true
  | _ => false

/-- The task of signalling `all_awake_event`. -/
def isLast : Pc C → Bool
  | .decremented lastWaiter _ => lastWaiter
  | .lastOut _ => true
  | _ => false

/-- In a broadcast that has set `was_broadcast`. -/
def marked : Pc C → Bool
  | .postingAll _ | .postedAll _ | .awaiting _ | .clearing _ => true
  | .thrown inside _ => inside
  | _ => false

/-- In a broadcast that has released the semaphore and waits for the threads. -/
def draining : Pc C → Bool
  | .postedAll _ | .awaiting _ => true
  | _ => false

/-- In a broadcast that has found waiters and has not released the semaphore yet. -/
def announcing : Pc C → Bool
  | .marking _ | .postingAll _ => true
  | _ => false

def isClearing : Pc C → Bool
  | .clearing _ => true
  | _ => false

/-- The call that a point inside belongs to. -/
def Belongs : Pc C → Prop
  | .at _ => True
  | .waitEnter c | .incrementing c | .incremented c | .releasing c | .queued c | .wokenEnter c
  | .decrementing c | .decremented _ c | .lastOut c | .relocking c => K.op c = .wait
  | .signalEnter c | .signalTest c | .signalLeave _ c | .posting c | .thrown false c =>
    K.op c = .signal
  | .broadcastEnter c | .broadcastTest c | .broadcastLeave c | .marking c | .postingAll c
  | .postedAll c | .awaiting c | .clearing c | .thrown true c => K.op c = .broadcast

end Pc

variable {K} {s s' : State P σ C} {p q : P}

/-! ### What one step does -/

/-- The steps of a thread, each with what it has tested. -/
inductive Effect (K : Program P σ C) (s : State P σ C) (p : P) : State P σ C → Prop
  | update {c : C} {f : P → σ → σ × C} (hop : K.op c = .update f) (hpc : s.pc p = .at c) :
      Effect K s p { s.goto p (.at (f p s.shared).2) with shared := (f p s.shared).1 }
  | lock {c : C} (hfree : s.mtx = none) (hop : K.op c = .lock) (hpc : s.pc p = .at c) :
      Effect K s p { s.goto p (.at (K.next c)) with mtx := some p }
  | unlock {c : C} (hop : K.op c = .unlock) (hpc : s.pc p = .at c) :
      Effect K s p { s.goto p (.at (K.next c)) with mtx := none }
  | wait {c : C} (hop : K.op c = .wait) (hpc : s.pc p = .at c) :
      Effect K s p (s.goto p (.waitEnter c))
  | signal {c : C} (hop : K.op c = .signal) (hpc : s.pc p = .at c) :
      Effect K s p (s.goto p (.signalEnter c))
  | broadcast {c : C} (hop : K.op c = .broadcast) (hpc : s.pc p = .at c) :
      Effect K s p (s.goto p (.broadcastEnter c))
  | waitEnter {c : C} (hfree : s.numWaitersLock = none) (hpc : s.pc p = .waitEnter c) :
      Effect K s p { s.goto p (.incrementing c) with numWaitersLock := some p }
  | incrementing {c : C} (hpc : s.pc p = .incrementing c) :
      Effect K s p { s.goto p (.incremented c) with numWaiters := s.numWaiters + 1 }
  | incremented {c : C} (hpc : s.pc p = .incremented c) : Effect K s p (s.leave p (.releasing c))
  | releasing {c : C} (hpc : s.pc p = .releasing c) :
      Effect K s p { s.goto p (.queued c) with mtx := none }
  | queued {c : C} (hpos : 0 < s.threadQueue) (hpc : s.pc p = .queued c) :
      Effect K s p { s.goto p (.wokenEnter c) with threadQueue := s.threadQueue - 1 }
  | wokenEnter {c : C} (hfree : s.numWaitersLock = none) (hpc : s.pc p = .wokenEnter c) :
      Effect K s p { s.goto p (.decrementing c) with numWaitersLock := some p }
  | decrementing {c : C} (hpc : s.pc p = .decrementing c) :
      Effect K s p { s.goto p (.decremented (s.wasBroadcast && s.numWaiters - 1 == 0) c) with
        numWaiters := s.numWaiters - 1 }
  | decremented {c : C} {lastWaiter : Bool} (hpc : s.pc p = .decremented lastWaiter c) :
      Effect K s p (s.leave p (if lastWaiter then .lastOut c else .relocking c))
  | lastOut {c : C} (hpc : s.pc p = .lastOut c) :
      Effect K s p { s.goto p (.relocking c) with allAwakeEvent := true }
  | relocking {c : C} (hfree : s.mtx = none) (hpc : s.pc p = .relocking c) :
      Effect K s p { s.goto p (.at (K.next c)) with mtx := some p }
  | signalEnter {c : C} (hfree : s.numWaitersLock = none) (hpc : s.pc p = .signalEnter c) :
      Effect K s p { s.goto p (.signalTest c) with numWaitersLock := some p }
  | signalTest {c : C} (hpc : s.pc p = .signalTest c) :
      Effect K s p (s.goto p (.signalLeave (0 < s.numWaiters) c))
  | signalLeave {c : C} {waitersPresent : Bool} (hpc : s.pc p = .signalLeave waitersPresent c) :
      Effect K s p (s.leave p (if waitersPresent then .posting c else .at (K.next c)))
  | posted {c : C} (hmax : s.threadQueue + 1 ≤ maxCount) (hpc : s.pc p = .posting c) :
      Effect K s p { s.goto p (.at (K.next c)) with threadQueue := s.threadQueue + 1 }
  | postingFailed {c : C} (hmax : ¬s.threadQueue + 1 ≤ maxCount) (hpc : s.pc p = .posting c) :
      Effect K s p (s.goto p (.thrown false c))
  | broadcastEnter {c : C} (hfree : s.numWaitersLock = none) (hpc : s.pc p = .broadcastEnter c) :
      Effect K s p { s.goto p (.broadcastTest c) with numWaitersLock := some p }
  | announce {c : C} (hpos : 0 < s.numWaiters) (hpc : s.pc p = .broadcastTest c) :
      Effect K s p (s.goto p (.marking c))
  | nobody {c : C} (hzero : s.numWaiters = 0) (hpc : s.pc p = .broadcastTest c) :
      Effect K s p (s.goto p (.broadcastLeave c))
  | broadcastLeave {c : C} (hpc : s.pc p = .broadcastLeave c) :
      Effect K s p (s.leave p (.at (K.next c)))
  | marking {c : C} (hpc : s.pc p = .marking c) :
      Effect K s p { s.goto p (.postingAll c) with wasBroadcast := true }
  | postedAll {c : C} (hmax : s.threadQueue + s.numWaiters ≤ maxCount)
      (hpc : s.pc p = .postingAll c) :
      Effect K s p { s.goto p (.postedAll c) with threadQueue := s.threadQueue + s.numWaiters }
  | postingAllFailed {c : C} (hmax : ¬s.threadQueue + s.numWaiters ≤ maxCount)
      (hpc : s.pc p = .postingAll c) : Effect K s p (s.goto p (.thrown true c))
  | leaveAll {c : C} (hpc : s.pc p = .postedAll c) : Effect K s p (s.leave p (.awaiting c))
  | awaiting {c : C} (hevent : s.allAwakeEvent = true) (hpc : s.pc p = .awaiting c) :
      Effect K s p { s.goto p (.clearing c) with allAwakeEvent := false }
  | clearing {c : C} (hpc : s.pc p = .clearing c) :
      Effect K s p { s.goto p (.at (K.next c)) with wasBroadcast := false }

theorem of_lock {c : Pc C} (hs : s.lock p c = some s') :
    s.mtx = none ∧ s' = { s.goto p c with mtx := some p } := by
  unfold State.lock at hs
  split at hs
  · exact ⟨‹_›, (Option.some.inj hs).symm⟩
  · cases hs

theorem of_enter {c : Pc C} (hs : s.enter p c = some s') :
    s.numWaitersLock = none ∧ s' = { s.goto p c with numWaitersLock := some p } := by
  unfold State.enter at hs
  split at hs
  · exact ⟨‹_›, (Option.some.inj hs).symm⟩
  · cases hs

theorem step_effect (hs : step K s p = some s') : Effect K s p s' := by
  unfold step at hs
  split at hs <;> rename_i hpc
  case h_1 c =>
    split at hs <;> rename_i hop
    case h_1 => cases hs; exact .update hop hpc
    case h_2 => obtain ⟨hfree, rfl⟩ := of_lock hs; exact .lock hfree hop hpc
    case h_3 => cases hs; exact .unlock hop hpc
    case h_4 => cases hs; exact .wait hop hpc
    case h_5 => cases hs; exact .signal hop hpc
    case h_6 => cases hs; exact .broadcast hop hpc
  case h_2 c => obtain ⟨hfree, rfl⟩ := of_enter hs; exact .waitEnter hfree hpc
  case h_3 c => cases hs; exact .incrementing hpc
  case h_4 c => cases hs; exact .incremented hpc
  case h_5 c => cases hs; exact .releasing hpc
  case h_6 c =>
    split at hs
    · cases hs
      exact .queued ‹_› hpc
    · cases hs
  case h_7 c => obtain ⟨hfree, rfl⟩ := of_enter hs; exact .wokenEnter hfree hpc
  case h_8 c => cases hs; exact .decrementing hpc
  case h_9 lastWaiter c => cases hs; exact .decremented hpc
  case h_10 c => cases hs; exact .lastOut hpc
  case h_11 c => obtain ⟨hfree, rfl⟩ := of_lock hs; exact .relocking hfree hpc
  case h_12 c => obtain ⟨hfree, rfl⟩ := of_enter hs; exact .signalEnter hfree hpc
  case h_13 c => cases hs; exact .signalTest hpc
  case h_14 waitersPresent c => cases hs; exact .signalLeave hpc
  case h_15 c =>
    cases hs
    unfold State.release
    split
    · exact .posted ‹_› hpc
    · exact .postingFailed ‹_› hpc
  case h_16 c => obtain ⟨hfree, rfl⟩ := of_enter hs; exact .broadcastEnter hfree hpc
  case h_17 c =>
    cases hs
    split
    · exact .announce ‹_› hpc
    · exact .nobody (Nat.eq_zero_of_not_pos ‹_›) hpc
  case h_18 c => cases hs; exact .broadcastLeave hpc
  case h_19 c => cases hs; exact .marking hpc
  case h_20 c =>
    cases hs
    unfold State.release
    split
    · exact .postedAll ‹_› hpc
    · exact .postingAllFailed ‹_› hpc
  case h_21 c => cases hs; exact .leaveAll hpc
  case h_22 c =>
    split at hs
    · cases hs
      exact .awaiting ‹_› hpc
    · cases hs
  case h_23 c => cases hs; exact .clearing hpc
  case h_24 => cases hs

@[simp] theorem State.goto_pc (s : State P σ C) (p : P) (c : Pc C) :
    (s.goto p c).pc = Function.update s.pc p c := rfl

@[simp] theorem State.leave_pc (s : State P σ C) (p : P) (c : Pc C) :
    (s.leave p c).pc = Function.update s.pc p c := rfl

@[simp] theorem State.goto_numWaitersLock (s : State P σ C) (p : P) (c : Pc C) :
    (s.goto p c).numWaitersLock = s.numWaitersLock := rfl

@[simp] theorem State.leave_numWaitersLock (s : State P σ C) (p : P) (c : Pc C) :
    (s.leave p c).numWaitersLock = none := rfl

namespace Effect

variable (he : Effect K s p s')

include he

/-- Only the thread itself moves. -/
theorem pc_eq : s'.pc = Function.update s.pc p (s'.pc p) := by
  cases he <;> simp

theorem belongs (h : (s.pc p).Belongs K) : (s'.pc p).Belongs K := by
  cases he <;> rename_i hpc <;> rw [hpc] at h <;> simp only [Pc.Belongs] at h
  case decremented lastWaiter => cases lastWaiter <;> simpa [Pc.Belongs] using h
  case signalLeave waitersPresent => cases waitersPresent <;> simp [Pc.Belongs, h]
  all_goals simp [Pc.Belongs, *]

/-- The critical section is entered when it is free, and left by who is inside. -/
theorem critical : Moves Pc.inside s.pc p (s'.pc p) s.numWaitersLock s'.numWaitersLock := by
  unfold Moves
  cases he <;> rename_i hpc <;> rw [hpc]
  case decremented lastWaiter => cases lastWaiter <;> simp [Pc.inside]
  case signalLeave waitersPresent => cases waitersPresent <;> simp [Pc.inside]
  all_goals simp [Pc.inside, *]

/-- The mutex is taken when it is free, and released by who holds it. -/
theorem mtx (h : (s.pc p).Belongs K) : Moves (Pc.holds K) s.pc p (s'.pc p) s.mtx s'.mtx := by
  unfold Moves
  cases he <;> rename_i hpc <;> rw [hpc] at h ⊢
  case update hop => exact .inl ⟨rfl, by simpa [Pc.holds] using K.update_holds hop p s.shared⟩
  case lock hfree hop => exact .inr (.inl ⟨hfree, rfl, by simp [Pc.holds, K.lock_holds hop]⟩)
  case unlock hop => simp [Pc.holds, K.unlock_holds hop]
  case relocking hfree => exact .inr (.inl ⟨hfree, rfl, by simp [Pc.holds, K.wait_holds h]⟩)
  case releasing => simp [Pc.holds]
  case decremented lastWaiter => cases lastWaiter <;> exact .inl ⟨rfl, by simp [Pc.holds]⟩
  case signalLeave waitersPresent =>
    have hcall := K.signal_holds h
    cases waitersPresent <;> exact .inl ⟨rfl, by simp [Pc.holds, hcall]⟩
  all_goals
    refine .inl ⟨rfl, ?_⟩
    simp only [Pc.Belongs] at h
    simp [Pc.holds, Program.wait_holds, Program.signal_holds, Program.broadcast_holds, *]

/-- The counter follows the threads, if it has counted this one. -/
theorem numWaiters (hpos : (s.pc p).counted → 0 < s.numWaiters) :
    s'.numWaiters + (s.pc p).counted.toNat = s.numWaiters + (s'.pc p).counted.toNat := by
  cases he <;> rename_i hpc <;> rw [hpc] at hpos ⊢
  case decrementing =>
    have := hpos rfl
    simp [Pc.counted]
    omega
  case decremented lastWaiter => cases lastWaiter <;> simp [Pc.counted, State.leave, State.goto]
  case signalLeave waitersPresent =>
    cases waitersPresent <;> simp [Pc.counted, State.leave, State.goto]
  all_goals simp [Pc.counted, State.leave, State.goto]

theorem wasBroadcast :
    (s'.wasBroadcast = s.wasBroadcast ∧ (s'.pc p).marked = (s.pc p).marked) ∨
    (s'.wasBroadcast = true ∧ (s'.pc p).marked = true) ∨
    (s'.wasBroadcast = false ∧ (s.pc p).marked = true ∧ (s'.pc p).marked = false) := by
  cases he <;> rename_i hpc <;> rw [hpc]
  case decremented lastWaiter => cases lastWaiter <;> simp [Pc.marked, State.leave, State.goto]
  case signalLeave waitersPresent =>
    cases waitersPresent <;> simp [Pc.marked, State.leave, State.goto]
  all_goals simp [Pc.marked, State.leave, State.goto]

end Effect

omit [DecidableEq P] in
theorem Pc.holds_of_marked {c : Pc C} (h : c.marked) : c.holds K := by
  cases c <;> simp_all [Pc.marked, Pc.holds]

omit [DecidableEq P] in
theorem Pc.holds_of_draining {c : Pc C} (h : c.draining) : c.holds K := by
  cases c <;> simp_all [Pc.draining, Pc.holds]

omit [DecidableEq P] in
theorem Pc.marked_of_draining {c : Pc C} (h : c.draining) : c.marked := by
  cases c <;> simp_all [Pc.draining, Pc.marked]

omit [DecidableEq P] in
theorem Pc.inside_of_announcing {c : Pc C} (h : c.announcing) : c.inside := by
  cases c <;> simp_all [Pc.announcing, Pc.inside]

omit [DecidableEq P] in
theorem Pc.holds_of_announcing {c : Pc C} (h : c.announcing) : c.holds K := by
  cases c <;> simp_all [Pc.announcing, Pc.holds]

omit [DecidableEq P] in
theorem Pc.holds_of_isClearing {c : Pc C} (h : c.isClearing) : c.holds K := by
  cases c <;> simp_all [Pc.isClearing, Pc.holds]

/-! ### The invariant -/

section Invariant

variable [Fintype P]

/-- What the two locks protect. -/
structure State.Protected (K : Program P σ C) (s : State P σ C) : Prop where
  belongs : ∀ p, (s.pc p).Belongs K
  mtx : Locked (Pc.holds K) s.pc s.mtx
  owner : Owned (Pc.holds K) s.pc s.mtx
  critical : Locked Pc.inside s.pc s.numWaitersLock
  entered : Owned Pc.inside s.pc s.numWaitersLock
  numWaiters : s.numWaiters = headcount Pc.counted s.pc
  wasBroadcast : s.wasBroadcast = true ↔ ∃ p, (s.pc p).marked

/-- The last thread out has still to signal the event, or the broadcast to take the signal. -/
def State.Awaited (s : State P σ C) : Prop :=
  headcount Pc.isLast s.pc + s.allAwakeEvent.toNat = if s.numWaiters = 0 then 1 else 0

def State.Quiet (s : State P σ C) : Prop :=
  headcount Pc.isLast s.pc = 0 ∧ s.allAwakeEvent = false

/-- What a broadcast and the threads that it wakes agree on. -/
structure State.Drained (s : State P σ C) : Prop where
  /-- every queued thread has its token -/
  tokens : ∀ p, (s.pc p).draining → headcount Pc.isQueued s.pc ≤ s.threadQueue
  awaited : ∀ p, (s.pc p).draining → s.Awaited
  quiet : (∀ p, (s.pc p).draining = false) → s.Quiet
  announced : ∀ p, (s.pc p).announcing → 0 < s.numWaiters
  cleared : ∀ p, (s.pc p).isClearing → s.numWaiters = 0

namespace State.Protected

variable (h : s.Protected K)

include h

theorem wasBroadcast_step (he : Effect K s p s') :
    s'.wasBroadcast = true ↔ ∃ q, (s'.pc q).marked := by
  have hold := h.wasBroadcast
  rw [he.pc_eq]
  rcases he.wasBroadcast with ⟨hflag, hmark⟩ | ⟨hflag, hmark⟩ | ⟨hflag, hmark, hout⟩
  · rw [hflag, hold]
    refine exists_congr fun q => ?_
    by_cases hq : q = p
    · subst hq
      simp [hmark]
    · simp [hq]
  · exact iff_of_true hflag ⟨p, by simpa using hmark⟩
  · rw [hflag]
    refine iff_of_false (by simp) ?_
    rintro ⟨q, hq⟩
    by_cases hqp : q = p
    · subst hqp
      simp [hout] at hq
    · rw [Function.update_of_ne hqp] at hq
      exact hqp (h.mtx.unique (Pc.holds_of_marked hq) (Pc.holds_of_marked hmark))

omit [DecidableEq P] in
theorem numWaiters_pos (hp : (s.pc p).counted) : 0 < s.numWaiters := by
  rw [h.numWaiters]
  exact headcount_pos.mpr ⟨p, hp⟩

omit [DecidableEq P] in
/-- Whoever is queued is counted. -/
theorem queued_le_numWaiters : headcount Pc.isQueued s.pc ≤ s.numWaiters := by
  rw [h.numWaiters]
  exact headcount_mono fun q hq => by cases hc : s.pc q <;> simp_all [Pc.isQueued, Pc.counted]

theorem step (he : Effect K s p s') : s'.Protected K where
  belongs := by
    intro q
    rw [he.pc_eq]
    by_cases hq : q = p
    · subst hq
      simpa using he.belongs (h.belongs q)
    · simpa [hq] using h.belongs q
  mtx := by
    rw [he.pc_eq]
    exact h.mtx.move (he.mtx (h.belongs p))
  owner := by
    rw [he.pc_eq]
    exact h.owner.move (he.mtx (h.belongs p))
  critical := by
    rw [he.pc_eq]
    exact h.critical.move he.critical
  entered := by
    rw [he.pc_eq]
    exact h.entered.move he.critical
  numWaiters := by
    have hcount := headcount_update Pc.counted s.pc p (s'.pc p)
    have hold := h.numWaiters
    have hnew := he.numWaiters h.numWaiters_pos
    rw [he.pc_eq]
    omega
  wasBroadcast := h.wasBroadcast_step he

end State.Protected

namespace State.Drained

variable (d : s.Drained)

include d

/-- A thread moves that takes no part in a broadcast of its own. -/
theorem move {c : Pc C} (hpc : s'.pc = Function.update s.pc p c)
    (hdraining : c.draining = (s.pc p).draining)
    (hannouncing : c.announcing → (s.pc p).announcing)
    (hclearing : c.isClearing → (s.pc p).isClearing)
    (htokens : headcount Pc.isQueued s.pc ≤ s.threadQueue →
      headcount Pc.isQueued s'.pc ≤ s'.threadQueue)
    (hawaited : (∃ q, (s.pc q).draining) → s.Awaited → s'.Awaited)
    (hquiet : (∀ q, (s.pc q).draining = false) → s.Quiet → s'.Quiet)
    (hwaiters : (∃ q, (s.pc q).announcing) → 0 < s.numWaiters → 0 < s'.numWaiters)
    (hover : s.numWaiters = 0 → s'.numWaiters = 0) : s'.Drained := by
  have hkeep : ∀ (f : Pc C → Bool) q, (f c → f (s.pc p)) → f (s'.pc q) → f (s.pc q) := by
    intro f q hf hq
    rw [hpc] at hq
    by_cases hqp : q = p
    · subst hqp
      exact hf (by simpa using hq)
    · simpa [hqp] using hq
  have hdrains : ∀ q, (s'.pc q).draining = (s.pc q).draining := by
    rw [hpc]
    exact kind_update_same hdraining
  constructor
  · intro q hq
    exact htokens (d.tokens q (hdrains q ▸ hq))
  · intro q hq
    exact hawaited ⟨q, hdrains q ▸ hq⟩ (d.awaited q (hdrains q ▸ hq))
  · intro hnone
    have hnone' : ∀ q, (s.pc q).draining = false := fun q => hdrains q ▸ hnone q
    exact hquiet hnone' (d.quiet hnone')
  · intro q hq
    have hold := hkeep Pc.announcing q hannouncing hq
    exact hwaiters ⟨q, hold⟩ (d.announced q hold)
  · intro q hq
    exact hover (d.cleared q (hkeep Pc.isClearing q hclearing hq))

/-- Most steps are none of a broadcast's business. -/
theorem idle {c : Pc C} (hpc : s'.pc = Function.update s.pc p c)
    (hqueued : c.isQueued = (s.pc p).isQueued) (hlast : c.isLast = (s.pc p).isLast)
    (hdraining : c.draining = (s.pc p).draining)
    (hannouncing : c.announcing → (s.pc p).announcing)
    (hclearing : c.isClearing → (s.pc p).isClearing) (hwaiters : s'.numWaiters = s.numWaiters)
    (htokens : s.threadQueue ≤ s'.threadQueue) (hevent : s'.allAwakeEvent = s.allAwakeEvent) :
    s'.Drained := by
  have hqueues : headcount Pc.isQueued s'.pc = headcount Pc.isQueued s.pc := by
    rw [hpc]
    exact headcount_update_same hqueued
  have hlasts : headcount Pc.isLast s'.pc = headcount Pc.isLast s.pc := by
    rw [hpc]
    exact headcount_update_same hlast
  refine d.move hpc hdraining hannouncing hclearing ?_ ?_ ?_ ?_ ?_
  · intro hle
    rw [hqueues]
    exact hle.trans htokens
  · intro _ hold
    unfold State.Awaited
    rw [hlasts, hevent, hwaiters]
    exact hold
  · intro _ hold
    unfold State.Quiet
    rw [hlasts, hevent]
    exact hold
  · intro _ hpos
    rwa [hwaiters]
  · intro hzero
    rwa [hwaiters]

end State.Drained

/-- Whoever moves with the mutex moves while nobody else is in a broadcast. -/
theorem State.Drained.alone {c : Pc C} (h : s.Protected K) (hp : (s.pc p).holds K)
    (hpc : s'.pc = Function.update s.pc p c)
    (hdraining : c.draining = false) (hannouncing : c.announcing → 0 < s'.numWaiters)
    (hclearing : c.isClearing → s'.numWaiters = 0)
    (hquiet : s'.Quiet) : s'.Drained := by
  have hmove : ∀ (f : Pc C → Bool) q, (∀ {c : Pc C}, f c → c.holds K) → f (s'.pc q) → f c := by
    intro f q hf hq
    rw [hpc] at hq
    by_cases hqp : q = p
    · subst hqp
      simpa using hq
    · rw [Function.update_of_ne hqp] at hq
      exact absurd (h.mtx.unique (hf hq) hp) hqp
  have hnone : ∀ q, (s'.pc q).draining = true → False := by
    intro q hq
    have := hmove Pc.draining q Pc.holds_of_draining hq
    simp [hdraining] at this
  exact ⟨fun q hq => (hnone q hq).elim, fun q hq => (hnone q hq).elim, fun _ => hquiet,
    fun q hq => hannouncing (hmove _ q Pc.holds_of_announcing hq),
    fun q hq => hclearing (hmove _ q Pc.holds_of_isClearing hq)⟩

omit [DecidableEq P] in
theorem State.Protected.not_draining (h : s.Protected K) (hp : (s.pc p).holds K)
    (hd : (s.pc p).draining = false) : ∀ q, (s.pc q).draining = false := by
  intro q
  by_contra hq
  rw [Bool.not_eq_false] at hq
  rw [h.mtx.unique (Pc.holds_of_draining hq) hp, hd] at hq
  cases hq

omit [DecidableEq P] in
/-- While a thread that is counted has still to leave, a broadcast that has set `was_broadcast`
and is not in the critical section drains. -/
theorem State.Protected.draining_of_inside (h : s.Protected K) (d : s.Drained)
    (hp : s.pc p = .decrementing c) (hflag : s.wasBroadcast = true) :
    ∃ q, (s.pc q).draining := by
  obtain ⟨q, hq⟩ := h.wasBroadcast.mp hflag
  have hpos := h.numWaiters_pos (p := p) (by simp [hp, Pc.counted])
  have hout : (s.pc q).inside = false := by
    by_contra hin
    rw [Bool.not_eq_false] at hin
    have hqp : q = p := h.critical.unique hin (by simp [hp, Pc.inside])
    simp [hqp, hp, Pc.marked] at hq
  refine ⟨q, ?_⟩
  cases hc : s.pc q with
  | clearing c' =>
    have := d.cleared q (by simp [hc, Pc.isClearing])
    omega
  | _ => simp_all [Pc.marked, Pc.inside, Pc.draining]

/-! ### The steps of a broadcast -/

theorem State.last_update (s : State P σ C) (p : P) (c : Pc C) :
    headcount Pc.isLast (Function.update s.pc p c) + (s.pc p).isLast.toNat =
      headcount Pc.isLast s.pc + c.isLast.toNat :=
  headcount_update Pc.isLast s.pc p c

theorem State.queued_update (s : State P σ C) (p : P) (c : Pc C) :
    headcount Pc.isQueued (Function.update s.pc p c) + (s.pc p).isQueued.toNat =
      headcount Pc.isQueued s.pc + c.isQueued.toNat :=
  headcount_update Pc.isQueued s.pc p c

namespace State.Drained

variable {c : C}

omit [DecidableEq P] in
/-- Whoever holds the mutex outside a broadcast sees none going on. -/
theorem settled (d : s.Drained) (h : s.Protected K) (hp : (s.pc p).holds K)
    (hd : (s.pc p).draining = false) : s.Quiet :=
  d.quiet (h.not_draining hp hd)

/-- A step with the mutex that stays outside a broadcast. -/
theorem outside {e : Pc C} (d : s.Drained) (h : s.Protected K) (hp : (s.pc p).holds K)
    (hd : (s.pc p).draining = false) (hl : (s.pc p).isLast = false)
    (hpc : s'.pc = Function.update s.pc p e) (hevent : s'.allAwakeEvent = s.allAwakeEvent)
    (hdraining : e.draining = false) (hlast : e.isLast = false)
    (hannouncing : e.announcing → 0 < s'.numWaiters) (hclearing : e.isClearing = false) :
    s'.Drained := by
  obtain ⟨hzero, hno⟩ := d.settled h hp hd
  refine .alone h hp hpc hdraining hannouncing (by simp [hclearing]) ⟨?_, hevent.trans hno⟩
  rw [hpc]
  simpa [hl, hlast, hzero] using s.last_update p e

theorem queued (d : s.Drained) (hpos : 0 < s.threadQueue) (hp : s.pc p = .queued c) :
    State.Drained { s.goto p (.wokenEnter c) with threadQueue := s.threadQueue - 1 } := by
  have hsame := s.last_update p (.wokenEnter c)
  have hless := s.queued_update p (.wokenEnter c)
  simp only [hp, Pc.isLast, Pc.isQueued, Bool.toNat_false, Bool.toNat_true, add_zero] at hsame hless
  refine d.move (p := p) (c := .wokenEnter c) rfl (by simp [hp, Pc.draining])
    (by simp [Pc.announcing]) (by simp [Pc.isClearing]) ?_ ?_ ?_ (fun _ => id) id
  · intro hle
    change headcount Pc.isQueued (Function.update s.pc p _) ≤ s.threadQueue - 1
    omega
  · intro _ hold
    change headcount Pc.isLast (Function.update s.pc p _) + s.allAwakeEvent.toNat = _
    rw [hsame]
    exact hold
  · intro _ hold
    exact ⟨hsame.trans hold.1, hold.2⟩

/-- The waiter that takes the count to zero during a broadcast is the one to set the event. -/
theorem decrementing (d : s.Drained) (h : s.Protected K) (hp : s.pc p = .decrementing c) :
    State.Drained { s.goto p (.decremented (s.wasBroadcast && s.numWaiters - 1 == 0) c) with
      numWaiters := s.numWaiters - 1 } := by
  have hpos := h.numWaiters_pos (p := p) (by simp [hp, Pc.counted])
  have hsame := s.queued_update p (.decremented (s.wasBroadcast && s.numWaiters - 1 == 0) c)
  have hmore := s.last_update p (.decremented (s.wasBroadcast && s.numWaiters - 1 == 0) c)
  simp only [hp, Pc.isLast, Pc.isQueued, Bool.toNat_false, add_zero] at hsame hmore
  refine d.move (p := p) (c := .decremented (s.wasBroadcast && s.numWaiters - 1 == 0) c) rfl
    (by simp [hp, Pc.draining]) (by simp [Pc.announcing]) (by simp [Pc.isClearing]) ?_ ?_ ?_ ?_ ?_
  · intro hle
    exact hsame.trans_le hle
  · rintro ⟨q, hq⟩ hold
    have hflag : s.wasBroadcast = true := h.wasBroadcast.mpr ⟨q, Pc.marked_of_draining hq⟩
    have hnone : headcount Pc.isLast s.pc + s.allAwakeEvent.toNat = 0 := by
      rw [hold, if_neg (by omega)]
    change headcount Pc.isLast (Function.update s.pc p _) + s.allAwakeEvent.toNat =
      if s.numWaiters - 1 = 0 then 1 else 0
    rw [hmore, hflag, Bool.true_and]
    by_cases hzero : s.numWaiters - 1 = 0
    · rw [if_pos hzero, hzero]
      simp
      omega
    · rw [if_neg hzero, beq_eq_false_iff_ne.mpr hzero, Bool.toNat_false]
      omega
  · intro hnone hold
    have hflag : s.wasBroadcast = false := by
      by_contra hflag
      rw [Bool.not_eq_false] at hflag
      obtain ⟨q, hq⟩ := h.draining_of_inside d hp hflag
      simp [hnone q] at hq
    refine ⟨hmore.trans ?_, hold.2⟩
    simp [hflag, hold.1]
  · rintro ⟨q, hq⟩ _
    have hqp : q = p := h.critical.unique (Pc.inside_of_announcing hq) (by simp [hp, Pc.inside])
    simp [hqp, hp, Pc.announcing] at hq
  · intro hzero
    change s.numWaiters - 1 = 0
    omega

theorem lastOut (d : s.Drained) (hp : s.pc p = .lastOut c) :
    State.Drained { s.goto p (.relocking c) with allAwakeEvent := true } := by
  have hsame := s.queued_update p (.relocking c)
  have hless := s.last_update p (.relocking c)
  simp only [hp, Pc.isLast, Pc.isQueued, Bool.toNat_false, Bool.toNat_true, add_zero] at hsame hless
  refine d.move (p := p) (c := .relocking c) rfl (by simp [hp, Pc.draining])
    (by simp [Pc.announcing]) (by simp [Pc.isClearing]) ?_ ?_ ?_ (fun _ => id) id
  · intro hle
    exact hsame.trans_le hle
  · intro _ hold
    unfold State.Awaited at hold
    change headcount Pc.isLast (Function.update s.pc p _) + 1 =
      if s.numWaiters = 0 then 1 else 0
    split at hold
    · rw [if_pos ‹_›]
      omega
    · omega
  · intro _ hold
    have := hold.1
    omega

/-- There is a token now for everybody at the semaphore, and the event is still to come. -/
theorem postedAll (d : s.Drained) (h : s.Protected K) (hp : s.pc p = .postingAll c) :
    State.Drained { s.goto p (.postedAll c) with
      threadQueue := s.threadQueue + s.numWaiters } := by
  have hholds : (s.pc p).holds K := by simp [hp, Pc.holds]
  obtain ⟨hzero, hevent⟩ := d.settled h hholds (by simp [hp, Pc.draining])
  have hpos := d.announced p (by simp [hp, Pc.announcing])
  constructor
  · intro q _
    have hle := h.queued_le_numWaiters
    have hnew := s.queued_update p (.postedAll c)
    simp only [hp, Pc.isQueued, Bool.toNat_false, add_zero] at hnew
    change headcount Pc.isQueued (Function.update s.pc p _) ≤ s.threadQueue + s.numWaiters
    omega
  · intro q _
    have hnew := s.last_update p (.postedAll c)
    simp only [hp, Pc.isLast, Bool.toNat_false, add_zero, hzero] at hnew
    change headcount Pc.isLast (Function.update s.pc p _) + s.allAwakeEvent.toNat =
      if s.numWaiters = 0 then 1 else 0
    rw [hnew, hevent, if_neg (by omega)]
    rfl
  · intro hnone
    have := hnone p
    simp [Pc.draining] at this
  · intro q hq
    exact hpos
  · intro q hq
    by_cases hqp : q = p
    · simp [hqp, Pc.isClearing] at hq
    · simp only [State.goto_pc, Function.update_of_ne hqp] at hq
      exact (hqp (h.mtx.unique (Pc.holds_of_isClearing hq) hholds)).elim

/-- Nobody is counted any more when the event lets the broadcaster go on. -/
theorem awaiting (d : s.Drained) (h : s.Protected K) (hevent : s.allAwakeEvent = true)
    (hp : s.pc p = .awaiting c) :
    State.Drained { s.goto p (.clearing c) with allAwakeEvent := false } := by
  have hholds : (s.pc p).holds K := by simp [hp, Pc.holds]
  have hawaited : _ + _ = _ := d.awaited p (by simp [hp, Pc.draining])
  rw [hevent, Bool.toNat_true] at hawaited
  have hsplit : s.numWaiters = 0 ∧ headcount Pc.isLast s.pc = 0 := by
    split at hawaited <;> omega
  refine .alone (c := .clearing c) h hholds rfl rfl (by simp [Pc.announcing])
    (fun _ => hsplit.1) ⟨?_, rfl⟩
  simpa [hp, Pc.isLast, hsplit.2] using s.last_update p (.clearing c)

theorem step (d : s.Drained) (h : s.Protected K) (he : Effect K s p s') : s'.Drained := by
  cases he <;> rename_i hp
  case incrementing c =>
    exact d.outside (e := .incremented c) h (by simp [hp, Pc.holds]) (by simp [hp, Pc.draining])
      (by simp [hp, Pc.isLast]) rfl rfl rfl rfl (by simp [Pc.announcing]) rfl
  case releasing c =>
    exact d.outside (e := .queued c) h (by simp [hp, Pc.holds]) (by simp [hp, Pc.draining])
      (by simp [hp, Pc.isLast]) rfl rfl rfl rfl (by simp [Pc.announcing]) rfl
  case announce c hpos =>
    exact d.outside (e := .marking c) h (by simp [hp, Pc.holds]) (by simp [hp, Pc.draining])
      (by simp [hp, Pc.isLast]) rfl rfl rfl rfl (fun _ => hpos) rfl
  case queued c hpos => exact d.queued hpos hp
  case decrementing c => exact d.decrementing h hp
  case lastOut c => exact d.lastOut hp
  case postedAll c hmax => exact d.postedAll h hp
  case awaiting c hevent => exact d.awaiting h hevent hp
  case decremented c lastWaiter =>
    cases lastWaiter <;>
      refine d.idle (p := p) rfl ?_ ?_ ?_ ?_ ?_ rfl ?_ rfl <;>
      simp [hp, Pc.isQueued, Pc.isLast, Pc.draining, Pc.announcing, Pc.isClearing, State.goto,
        State.leave]
  case signalLeave c waitersPresent =>
    cases waitersPresent <;>
      refine d.idle (p := p) rfl ?_ ?_ ?_ ?_ ?_ rfl ?_ rfl <;>
      simp [hp, Pc.isQueued, Pc.isLast, Pc.draining, Pc.announcing, Pc.isClearing, State.goto,
        State.leave]
  all_goals
    refine d.idle (p := p) rfl ?_ ?_ ?_ ?_ ?_ rfl ?_ rfl <;>
      simp [hp, Pc.isQueued, Pc.isLast, Pc.draining, Pc.announcing, Pc.isClearing, State.goto,
        State.leave]

end State.Drained

omit [DecidableEq P] in
theorem State.Protected.not_queued (h : s.Protected K) (hzero : s.numWaiters = 0) (q : P) :
    (s.pc q).isQueued = false := by
  have hcounted : (s.pc q).counted = false := headcount_eq_zero.mp (h.numWaiters ▸ hzero) q
  cases hc : s.pc q <;> simp_all [Pc.isQueued, Pc.counted]

structure State.Invariant (K : Program P σ C) (s : State P σ C) : Prop where
  locks : s.Protected K
  drained : s.Drained

theorem invariant_initial (shared : σ) : (system K shared).initial.Invariant K where
  locks := by
    refine ⟨fun p => trivial, ?_, fun p hp => (by cases hp), ?_, fun p hp => (by cases hp), ?_, ?_⟩
    · intro p hp
      simp [system, Pc.holds, K.start_holds] at hp
    · intro p hp
      simp [system, Pc.inside] at hp
    · exact (headcount_eq_zero.mpr fun p => rfl).symm
    · simp [system, Pc.marked]
  drained := by
    have hquiet : (system K shared).initial.Quiet := ⟨headcount_eq_zero.mpr fun p => rfl, rfl⟩
    refine ⟨?_, ?_, fun _ => hquiet, ?_, ?_⟩ <;>
      simp [system, Pc.draining, Pc.announcing, Pc.isClearing]

theorem State.Invariant.step (h : s.Invariant K) (he : Effect K s p s') : s'.Invariant K :=
  ⟨h.locks.step he, h.drained.step h.locks he⟩

theorem invariant_reachable {shared : σ} (hr : (system K shared).Reachable (fun _ _ => True) s) :
    s.Invariant K :=
  hr.invariant (invariant_initial shared) fun _ _ _ h _ hs => h.step (step_effect hs)

end Invariant

end PFunc.WindowsCond
