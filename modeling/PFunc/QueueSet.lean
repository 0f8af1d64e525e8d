import Mathlib.Data.List.Perm.Basic

/-!
# The four sets of task queues

A queue is the list of its elements, and every operation on it runs under its lock.
A priority queue exposes an element that no other outranks; which one, when there are
several, is left to the heap, so the position of its top is an argument. Indices are
unbounded here, which the `int` of the scan is below 2 ^ 30 queues.
-/

namespace PFunc.QueueSet

inductive Policy where
  | cilkS
  | lifoS
  | fifoS
  | prioS
  deriving DecidableEq

structure PredicatePair (W : Type) where
  ownPred : W → Bool
  stealPred : W → Bool

variable {W : Type}

/-- `put`: `push_front`, or `push` of the container. -/
def put : Policy → List W → W → List W
  | .fifoS, queue, w => queue ++ [w]
  | _, queue, w => w :: queue

/-- The position a consumer examines: `front` or `back` of a deque, `top` or `front` else. -/
def position : Policy → Bool → ℕ → List W → ℕ
  | .cilkS, true, _, _ => 0
  | .cilkS, false, _, queue => queue.length - 1
  | .lifoS, _, _, _ => 0
  | .fifoS, _, _, _ => 0
  | .prioS, _, top, _ => top

def testAndGet (p : Policy) (own : Bool) (top : ℕ) (cnd : PredicatePair W) (queue : List W) :
    Option (W × List W) :=
  let i := position p own top queue
  match queue[i]? with
  | none => none
  | some w =>
    if (if own then cnd.ownPred w else cnd.stealPred w) then some (w, queue.eraseIdx i) else none

/-- `get`: examine the queues from `i` on, for the remaining number of attempts. -/
def scan (p : Policy) (numQueues queueNum : ℕ) (top : ℕ → ℕ) (cnd : PredicatePair W)
    (queue : ℕ → List W) : ℕ → ℕ → Option (W × (ℕ → List W))
  | 0, _ => none
  | attempts + 1, i =>
    let realI := i % numQueues
    match testAndGet p (realI == queueNum) (top realI) cnd (queue realI) with
    | some r => some (r.1, Function.update queue realI r.2)
    | none => scan p numQueues queueNum top cnd queue attempts (i + 1)

def get (p : Policy) (numQueues queueNum : ℕ) (top : ℕ → ℕ) (cnd : PredicatePair W)
    (queue : ℕ → List W) : Option (W × (ℕ → List W)) :=
  scan p numQueues queueNum top cnd queue numQueues queueNum

/-- The top of a priority queue comes before no other element. -/
def LegitTop (p : Policy) (before : W → W → Bool) (queue : List W) (top : ℕ) : Prop :=
  p = .prioS → queue = [] ∨ ∃ w ∈ queue[top]?, ∀ x ∈ queue, before w x = false

instance [DecidableEq W] (p : Policy) (before : W → W → Bool) (queue : List W) (top : ℕ) :
    Decidable (LegitTop p before queue top) := by
  unfold LegitTop
  infer_instance

variable {p : Policy} {own : Bool} {top : ℕ} {cnd : PredicatePair W} {queue rest : List W} {w x : W}

@[simp] theorem mem_put : x ∈ put p queue w ↔ x = w ∨ x ∈ queue := by
  cases p <;> simp [put, or_comm]

@[simp] theorem count_put [DecidableEq W] :
    (put p queue w).count x = queue.count x + if w = x then 1 else 0 := by
  cases p <;> simp [put, List.count_cons, List.count_append, beq_iff_eq]

theorem testAndGet_eq_some (h : testAndGet p own top cnd queue = some (w, rest)) :
    queue[position p own top queue]? = some w ∧
      (if own then cnd.ownPred w else cnd.stealPred w) ∧
      rest = queue.eraseIdx (position p own top queue) := by
  unfold testAndGet at h
  rcases hq : queue[position p own top queue]? with _ | v
  · simp [hq] at h
  · simp only [hq, Option.ite_none_right_eq_some, Option.some.injEq, Prod.mk.injEq] at h
    obtain ⟨hpred, rfl, rfl⟩ := h
    exact ⟨rfl, hpred, rfl⟩

theorem testAndGet_eq_none_iff : testAndGet p own top cnd queue = none ↔
    ∀ w ∈ queue[position p own top queue]?,
      (if own then cnd.ownPred w else cnd.stealPred w) = false := by
  unfold testAndGet
  cases hq : queue[position p own top queue]? with
  | none => simp [hq]
  | some v => cases own <;> simp [hq]

theorem sublist_of_testAndGet (h : testAndGet p own top cnd queue = some (w, rest)) :
    rest.Sublist queue := by
  obtain ⟨-, -, rfl⟩ := testAndGet_eq_some h
  exact List.eraseIdx_sublist _ _

theorem mem_of_testAndGet (h : testAndGet p own top cnd queue = some (w, rest)) : w ∈ queue :=
  List.mem_of_getElem? (testAndGet_eq_some h).1

/-- A successful consumer removes one occurrence of the task it returns. -/
theorem count_testAndGet [DecidableEq W] (h : testAndGet p own top cnd queue = some (w, rest)) :
    queue.count x = rest.count x + if w = x then 1 else 0 := by
  obtain ⟨hget, -, rfl⟩ := testAndGet_eq_some h
  have hperm := List.getElem_cons_eraseIdx_perm (List.getElem?_eq_some_iff.mp hget).1
  rw [(List.getElem?_eq_some_iff.mp hget).2] at hperm
  rw [← hperm.count_eq x, List.count_cons]
  simp

theorem scan_eq_none_iff {numQueues queueNum : ℕ} {top : ℕ → ℕ} {queue : ℕ → List W}
    {attempts i : ℕ} : scan p numQueues queueNum top cnd queue attempts i = none ↔
      ∀ k < attempts, testAndGet p ((i + k) % numQueues == queueNum) (top ((i + k) % numQueues)) cnd
        (queue ((i + k) % numQueues)) = none := by
  induction attempts generalizing i with
  | zero => simp [scan]
  | succ attempts ih =>
    rw [Nat.forall_lt_succ_left]
    simp only [scan, Nat.add_zero]
    cases testAndGet p (i % numQueues == queueNum) (top (i % numQueues)) cnd
        (queue (i % numQueues)) with
    | some r => simp
    | none =>
      simp only [ih, true_and]
      refine forall₂_congr fun k _ => ?_
      rw [show i + 1 + k = i + (k + 1) by omega]

/-- `get` run without interference returns null iff no queue's candidate is admitted. -/
theorem get_eq_none_iff {numQueues queueNum : ℕ} {top : ℕ → ℕ} {queue : ℕ → List W}
    (hq : queueNum < numQueues) : get p numQueues queueNum top cnd queue = none ↔
      ∀ i < numQueues, testAndGet p (i == queueNum) (top i) cnd (queue i) = none := by
  rw [get, scan_eq_none_iff]
  constructor
  · intro h i hi
    have hk : (i + numQueues - queueNum) % numQueues < numQueues := Nat.mod_lt _ (by omega)
    have he : (queueNum + (i + numQueues - queueNum) % numQueues) % numQueues = i := by
      rw [Nat.add_mod_mod, show queueNum + (i + numQueues - queueNum) = i + numQueues by omega,
        Nat.add_mod_right, Nat.mod_eq_of_lt hi]
    have := h _ hk
    rwa [he] at this
  · intro h k _
    exact h _ (Nat.mod_lt _ (by omega))

/-- A queue that is not empty has a candidate. -/
theorem exists_candidate (own : Bool) {before : W → W → Bool} (hne : queue ≠ [])
    (htop : LegitTop p before queue top) :
    ∃ w ∈ queue, queue[position p own top queue]? = some w := by
  have hpos : 0 < queue.length := List.length_pos_iff.mpr hne
  have hget : ∀ i < queue.length, ∃ w ∈ queue, queue[i]? = some w := by
    intro i hi
    exact ⟨queue[i], List.getElem_mem hi, List.getElem?_eq_getElem hi⟩
  cases p with
  | cilkS =>
    cases own with
    | true => exact hget 0 hpos
    | false => exact hget (queue.length - 1) (by omega)
  | lifoS => exact hget 0 hpos
  | fifoS => exact hget 0 hpos
  | prioS =>
    rcases htop rfl with hnil | ⟨w, hw, -⟩
    · exact absurd hnil hne
    · exact ⟨w, List.mem_of_getElem? hw, hw⟩

end PFunc.QueueSet
