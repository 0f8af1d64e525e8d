import PFunc.Exceptions
import PFunc.QueueSet

/-!
# Queue operations that throw

Every operation of the four sets calls `lock` and `unlock` around what may throw: the container
when it allocates or compares, and the predicates. An exception skips `unlock`.
-/

namespace PFunc.QueueFaults

open Exceptions QueueSet

/-! ### Critical sections without a guard -/

section Critical

variable {σ ε α : Type}

/-- What a lock protects, and whether it is held. -/
structure Guarded (σ : Type) where
  data : σ
  locked : Bool
  deriving DecidableEq

/-- `lock ()`, statements that may throw, `unlock ()`; no result while the lock is held. -/
def critical (body : σ → Except ε α × σ) (g : Guarded σ) : Option (Except ε α × Guarded σ) :=
  if g.locked then none
  else
    match body g.data with
    | (.ok a, s) => some (.ok a, ⟨s, false⟩)
    | (.error e, s) => some (.error e, ⟨s, true⟩)

variable {body : σ → Except ε α × σ} {g g' : Guarded σ}

theorem critical_of_locked (h : g.locked) : critical body g = none := if_pos h

theorem critical_error {e : ε} (h : critical body g = some (.error e, g')) :
    g'.locked ∧ body g.data = (.error e, g'.data) := by
  unfold critical at h
  split at h
  next => cases h
  next =>
    split at h
    next => cases h
    next e' s hbody =>
      cases h
      exact ⟨rfl, hbody⟩

theorem critical_ok {a : α} (h : critical body g = some (.ok a, g')) :
    g'.locked = false ∧ body g.data = (.ok a, g'.data) := by
  unfold critical at h
  split at h
  next => cases h
  next =>
    split at h
    next a' s hbody =>
      cases h
      exact ⟨rfl, hbody⟩
    next => cases h

end Critical

/-! ### The operations -/

/-- The container of a queue. `push` and `pop` return what is left in it if they throw: what was
there before, but for the heap, whose comparisons may throw at any time; and nothing makes a
deque fail to give up one of its ends. -/
structure Container (p : Policy) (W : Type) where
  push : List W → W → Except (Thrown × List W) (List W)
  pop : List W → ℕ → Except (Thrown × List W) (List W)
  push_ok : ∀ queue w queue', push queue w = .ok queue' → queue' = QueueSet.put p queue w
  push_error : p ≠ .prioS → ∀ queue w x queue', push queue w = .error (x, queue') → queue' = queue
  pop_ok : ∀ queue i queue', pop queue i = .ok queue' → queue' = queue.eraseIdx i
  pop_error : p ≠ .prioS → ∀ queue i r, pop queue i ≠ .error r

/-- A predicate pair that may throw. -/
structure ThrowingPair (W : Type) where
  ownPred : W → Except Thrown Bool
  stealPred : W → Except Thrown Bool

variable {p : Policy} {W : Type}

/-- What `put` does under the lock. -/
def pushBody (c : Container p W) (value : W) (queue : List W) : Except Thrown (Option W) × List W :=
  match c.push queue value with
  | .ok queue' => (.ok none, queue')
  | .error (x, queue') => (.error x, queue')

/-- What `test_and_get`, `test_and_get_front` and `test_and_get_back` do under the lock. -/
def testBody (c : Container p W) (own : Bool) (top : ℕ) (cnd : ThrowingPair W) (queue : List W) :
    Except Thrown (Option W) × List W :=
  let i := position p own top queue
  match queue[i]? with
  | none => (.ok none, queue)
  | some w =>
    match if own then cnd.ownPred w else cnd.stealPred w with
    | .error x => (.error x, queue)
    | .ok false => (.ok none, queue)
    | .ok true =>
      match c.pop queue i with
      | .ok queue' => (.ok (some w), queue')
      | .error (x, queue') => (.error x, queue')

/-- `PFUNC_CATCH_AND_RETHROW` -/
def catchAndRethrow (site : Site) {α σ : Type} (r : Except Thrown α × σ) : Except Thrown α × σ :=
  (r.1.mapError fun x => .pfunc (x.rethrown site), r.2)

/-- A call of one of the nine functions. -/
inductive Call (W : Type) where
  | put (value : W)
  /-- for `cilkS`, at the front if the queue is the own one and at the back else -/
  | testAndGet (own : Bool) (top : ℕ) (cnd : ThrowingPair W)

/-- What the macro after the function is given. -/
def Call.site (p : Policy) (fileAndLine : String) : Call W → Site
  | .put _ => ⟨"task_queue_set", "task_queue_set", fileAndLine⟩
  | .testAndGet own _ _ =>
    match p with
    | .cilkS =>
      ⟨"task_queue_set", if own then "test_and_get_front" else "test_and_get_back", fileAndLine⟩
    | .fifoS => ⟨"scheduling", "test_and_get", fileAndLine⟩
    | _ => ⟨"task_queue_set", "test_and_get", fileAndLine⟩

def Call.body (c : Container p W) : Call W → List W → Except Thrown (Option W) × List W
  | .put value => pushBody c value
  | .testAndGet own top cnd => testBody c own top cnd

/-- The call on a queue and its lock; no result as long as it waits for the lock. -/
def perform (c : Container p W) (fileAndLine : String) (call : Call W)
    (g : Guarded (List W)) : Option (Except Thrown (Option W) × Guarded (List W)) :=
  (critical (call.body c) g).map (catchAndRethrow (call.site p fileAndLine))

variable {c : Container p W} {fileAndLine : String} {call : Call W} {g g' : Guarded (List W)}

/-! ### What an exception leaves -/

theorem perform_of_locked (h : g.locked) : perform c fileAndLine call g = none := by
  rw [perform, critical_of_locked h]
  rfl

theorem perform_error {x : Thrown} (h : perform c fileAndLine call g = some (.error x, g')) :
    g'.locked ∧ ∃ x', call.body c g.data = (.error x', g'.data) := by
  obtain ⟨⟨r, g''⟩, hr, heq⟩ := Option.map_eq_some_iff.mp h
  obtain ⟨hmap, rfl⟩ := Prod.mk.inj heq
  cases r with
  | ok a => cases hmap
  | error x' =>
    obtain ⟨hlocked, hbody⟩ := critical_error hr
    exact ⟨hlocked, x', hbody⟩

/-- A deque holds what it held before the call that threw. -/
theorem body_error (hp : p ≠ .prioS) {queue queue' : List W} {x : Thrown}
    (h : call.body c queue = (.error x, queue')) : queue' = queue := by
  cases call with
  | put value =>
    simp only [Call.body, pushBody] at h
    split at h
    next => cases h
    next x' left hpush =>
      cases h
      exact c.push_error hp _ _ _ _ hpush
  | testAndGet own top cnd =>
    simp only [Call.body, testBody] at h
    split at h
    next => cases h
    next w =>
      split at h
      next =>
        cases h
        rfl
      next => cases h
      next =>
        split at h
        next => cases h
        next hpop => exact absurd hpop (c.pop_error hp _ _ _)

/-- The lock is free and, but for the heap, the queue is what it was. -/
def Restored (p : Policy) (g g' : Guarded (List W)) : Prop :=
  g'.locked = false ∧ (p ≠ .prioS → g'.data = g.data)

/-- A call that exits by an exception leaves a deque as it was, but the lock held: no later call on
the queue gets past it. -/
theorem exception_keeps_lock (c : Container p W) (fileAndLine : String) (call : Call W)
    {g g' : Guarded (List W)} {x : Thrown}
    (h : perform c fileAndLine call g = some (.error x, g')) :
    ¬Restored p g g' ∧ (p ≠ .prioS → g'.data = g.data) ∧
      ∀ fileAndLine' call', perform c fileAndLine' call' g' = none := by
  obtain ⟨hlocked, x', hbody⟩ := perform_error h
  refine ⟨?_, fun hp => body_error hp hbody, fun _ _ => perform_of_locked hlocked⟩
  rintro ⟨hfree, -⟩
  rw [hlocked] at hfree
  cases hfree

/-- A `std::deque` under a stack, when no memory is left. -/
def exhausted : Container .lifoS ℕ where
  push := fun queue _ => .error (.std "St9bad_alloc" "std::bad_alloc", queue)
  pop := fun queue i => .ok (queue.eraseIdx i)
  push_ok := by
    intro queue w queue' h
    cases h
  push_error := by
    intro _ queue w x queue' h
    cases h
    rfl
  pop_ok := by
    intro queue i queue' h
    cases h
    rfl
  pop_error := by
    intro _ queue i r h
    cases h

theorem exception_keeps_lock_exhausted : ∃ x,
    perform exhausted "" (.put 3) ⟨[1, 2], false⟩ = some (.error x, ⟨[1, 2], true⟩) ∧
      ¬Restored .lifoS ⟨[1, 2], false⟩ ⟨[1, 2], true⟩ :=
  ⟨_, rfl, (exception_keeps_lock exhausted "" (.put 3) rfl).1⟩

/-- A `put` that fails for want of memory, on a free queue of two tasks. -/
theorem not_restored_exhausted :
    ¬∀ (call : Call ℕ) (g g' : Guarded (List ℕ)) (x : Thrown),
      perform exhausted "" call g = some (.error x, g') → Restored .lifoS g g' := by
  intro h
  have hfree := (h (.put 3) ⟨[1, 2], false⟩ ⟨[1, 2], true⟩ _ rfl).1
  cases hfree

/-! ### What a call does that returns -/

def ThrowingPair.of (cnd : PredicatePair W) : ThrowingPair W where
  ownPred := fun w => .ok (cnd.ownPred w)
  stealPred := fun w => .ok (cnd.stealPred w)

theorem perform_ok {r : Option W} (h : perform c fileAndLine call g = some (.ok r, g')) :
    g'.locked = false ∧ call.body c g.data = (.ok r, g'.data) := by
  obtain ⟨⟨r', g''⟩, hr, heq⟩ := Option.map_eq_some_iff.mp h
  obtain ⟨hmap, rfl⟩ := Prod.mk.inj heq
  cases r' with
  | ok a =>
    cases hmap
    exact critical_ok hr
  | error x => cases hmap

/-- A call that returns does what the operation of the model without exceptions does. -/
theorem returned_refines {r : Option W} (h : perform c fileAndLine call g = some (.ok r, g')) :
    g'.locked = false ∧
      (∀ value, call = .put value → g'.data = QueueSet.put p g.data value) ∧
      ∀ own top cnd, call = .testAndGet own top (.of cnd) →
        match QueueSet.testAndGet p own top cnd g.data with
        | some (w, rest) => r = some w ∧ g'.data = rest
        | none => r = none ∧ g'.data = g.data := by
  obtain ⟨hfree, hbody⟩ := perform_ok h
  refine ⟨hfree, ?_, ?_⟩
  · rintro value rfl
    simp only [Call.body, pushBody] at hbody
    split at hbody
    next queue' hpush =>
      cases hbody
      exact c.push_ok _ _ _ hpush
    next => cases hbody
  · rintro own top cnd rfl
    simp only [Call.body, testBody, ThrowingPair.of] at hbody
    unfold QueueSet.testAndGet
    cases hget : g.data[position p own top g.data]? with
    | none =>
      simp only [hget, Prod.mk.injEq, Except.ok.injEq] at hbody
      obtain ⟨rfl, hdata⟩ := hbody
      simp only [hget]
      exact ⟨trivial, hdata.symm⟩
    | some w =>
      have hpred : (if own then Except.ok (cnd.ownPred w) else .ok (cnd.stealPred w)) =
          (.ok (if own then cnd.ownPred w else cnd.stealPred w) : Except Thrown Bool) := by
        split <;> rfl
      simp only [hget, hpred] at hbody ⊢
      cases hcase : if own then cnd.ownPred w else cnd.stealPred w with
      | false =>
        simp only [hcase, Prod.mk.injEq, Except.ok.injEq] at hbody
        obtain ⟨rfl, hdata⟩ := hbody
        simp [hdata]
      | true =>
        simp only [hcase] at hbody
        split at hbody
        next queue' hpop =>
          simp only [Prod.mk.injEq, Except.ok.injEq] at hbody
          obtain ⟨rfl, rfl⟩ := hbody
          simp [c.pop_ok _ _ _ hpop]
        next => cases hbody

end PFunc.QueueFaults
