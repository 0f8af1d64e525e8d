import PFunc.Priorities
import PFunc.QueueScan

/-!
# Looking only at the tops of the priority queues

A worker that waits examines one task of each queue. Since the comparison is a strict weak
order, that task is admitted if any task of its queue is.
-/

namespace PFunc.QueueSet

variable {π : Type} {comp : π → π → Bool} {task : Handle → Task π}

/-- `compare_task_ptr` -/
def comparePtr (comp : π → π → Bool) (task : Handle → Task π) (h h' : Handle) : Bool :=
  comp (task h).attr.priority (task h').attr.priority

/-- `waiting_predicate_pair<prioS> (previous)` -/
def waitingPair (comp : π → π → Bool) (task : Handle → Task π) (previous : Copy π) :
    PredicatePair Handle where
  ownPred := fun h => Policy.waitingPred .prioS comp previous (task h).toCopy
  stealPred := fun h => Policy.waitingPred .prioS comp previous (task h).toCopy

theorem pred_waitingPair {previous : Copy π} {q i : ℕ} {h : Handle} :
    pred q (waitingPair comp task previous) i h =
      comp previous.attr.priority (task h).attr.priority := by
  unfold pred
  split <;> rfl

/-- The top of a queue fails the predicate iff all its tasks do. -/
theorem top_fails_iff (hcomp : IsStrictWeakOrder π fun x y => comp x y) {q i : ℕ} {top : ℕ → ℕ}
    {queue : ℕ → List Handle} {x : π}
    (htop : LegitTop .prioS (comparePtr comp task) (queue i) (top i)) :
    (∀ h ∈ candidate .prioS q top queue i, comp x (task h).attr.priority = false) ↔
      ∀ h ∈ queue i, comp x (task h).attr.priority = false := by
  constructor
  · intro hfail h hh
    obtain ⟨t, ht, hmax⟩ := (htop rfl).resolve_left (List.ne_nil_of_mem hh)
    by_contra hne
    have hxh : comp x (task h).attr.priority := by simpa using hne
    have hxt := TaskManager.comp_of_not_comp hcomp hxh (hmax h hh)
    rw [hfail t ht] at hxt
    cases hxt
  · intro hall h hh
    exact hall h (List.mem_of_getElem? hh)

/-- `get` at a waiting point, run without interference, returns null iff the suspended task comes
before no queued task, and else a task that comes before no other one of its queue. -/
theorem waiting_get_complete (hcomp : IsStrictWeakOrder π fun x y => comp x y)
    (task : Handle → Task π) (previous : Copy π) {numQueues queueNum : ℕ}
    (hq : queueNum < numQueues) {top : ℕ → ℕ} {queue : ℕ → List Handle}
    (htop : ∀ i < numQueues, LegitTop .prioS (comparePtr comp task) (queue i) (top i)) :
    (get .prioS numQueues queueNum top (waitingPair comp task previous) queue = none ↔
      ∀ i < numQueues, ∀ h ∈ queue i,
        comp previous.attr.priority (task h).attr.priority = false) ∧
      ∀ h queue', get .prioS numQueues queueNum top (waitingPair comp task previous) queue =
          some (h, queue') →
        ∃ i < numQueues, h ∈ queue i ∧ ∀ x ∈ queue i, comparePtr comp task h x = false := by
  have hscan : Scans .prioS queueNum top (waitingPair comp task previous) queue
      (order numQueues queueNum) (visit .prioS queueNum top (waitingPair comp task previous) queue
        (order numQueues queueNum)) := visit_scans _
  rw [get_eq_visit hq]
  constructor
  · rw [Option.map_eq_none_iff, hscan.null]
    simp only [mem_order hq, pred_waitingPair]
    exact forall₂_congr fun i hi => top_fails_iff hcomp (htop i hi)
  · intro h queue' hget
    obtain ⟨w, hw, heq⟩ := Option.map_eq_some_iff.mp hget
    obtain ⟨hwh, -⟩ := Prod.mk.inj heq
    subst hwh
    obtain ⟨done, i, rest, horder, -, hcand, -⟩ := hscan.found w hw
    have hi : i < numQueues := by
      rw [← mem_order hq, horder]
      simp
    have hmem : w ∈ queue i := List.mem_of_getElem? hcand
    obtain ⟨t, ht, hmax⟩ := (htop i hi rfl).resolve_left (List.ne_nil_of_mem hmem)
    have htw : w = t := Option.some.inj (hcand.symm.trans ht)
    exact ⟨i, hi, hmem, htw ▸ hmax⟩

/-- A task of the priority given by its number. -/
def numbered (h : Handle) : Task ℕ :=
  { Task.new 0 with attr := { Attribute.new 0 true false with priority := h } }

/-- A task of priority 4 waits; the tops of the two queues are the tasks 3 and 9. -/
theorem waiting_get_complete_twoQueues :
    ¬(get .prioS 2 0 (fun i => i) (waitingPair (fun a b => a < b) numbered (numbered 4).toCopy)
      (fun i => [[3, 1], [7, 9, 2]].getD i []) = none) := by
  have htop : ∀ i < 2, LegitTop .prioS (comparePtr (fun a b => a < b) numbered)
      (([[3, 1], [7, 9, 2]] : List (List Handle)).getD i []) i := by decide
  have hq : 0 < 2 := by decide
  refine mt (waiting_get_complete (TaskManager.lt_isStrictWeakOrder .prioS []) numbered
    (numbered 4).toCopy hq htop).1.mp ?_
  decide

end PFunc.QueueSet
