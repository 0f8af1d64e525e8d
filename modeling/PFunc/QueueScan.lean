import PFunc.Atomics
import PFunc.QueueSet
import Mathlib.Data.List.Nodup

/-!
# The scan over all queues, in the integers of the code

`get` of each of the four sets counts with two `int`s below an `unsigned int`. Below 2 ^ 30
queues it examines the queues cyclically from its own on and does what `QueueSet.get`, whose
indices are unbounded, does.
-/

namespace PFunc.QueueSet

open Atomics

variable {W : Type}

/-- A call of `get`: the queues it examines in turn, each with whether this is its own queue, and
what it leaves. -/
structure Got (W : Type) where
  examined : List (ℕ × Bool)
  task : Option W
  queue : ℕ → List W

def Got.after (g : Got W) (i : ℕ) (own : Bool) : Got W :=
  { g with examined := (i, own) :: g.examined }

/-- `++i` of an `int`; an overflow is undefined. -/
def increment (i : Word) : Option Word :=
  if i = BitVec.intMax 32 then none else some (i + 1)

theorem increment_eq_some {i : Word} (h : i.toNat < 2 ^ 31 - 1) : increment i = some (i + 1) := by
  refine if_neg ?_
  rintro rfl
  exact absurd h (by decide)

theorem toNat_succ {i : Word} (h : i.toNat < 2 ^ 31 - 1) : (i + 1).toNat = i.toNat + 1 := by
  rw [BitVec.toNat_add, show (1 : Word).toNat = 1 from rfl]
  omega

theorem slt_iff {i j : Word} (hi : i.toNat < 2 ^ 31) (hj : j.toNat < 2 ^ 31) :
    i.slt j = decide (i.toNat < j.toNat) := by
  rw [BitVec.slt_eq_decide, BitVec.toInt_eq_toNat_cond, BitVec.toInt_eq_toNat_cond]
  congr 1
  rw [if_pos (by omega), if_pos (by omega), Int.ofNat_lt]

theorem toInt_increment {i j : Word} (h : increment i = some j) : j.toInt = i.toInt + 1 := by
  unfold increment at h
  split at h
  next => cases h
  next hi =>
    cases h
    have hne : i.toNat ≠ 2 ^ 31 - 1 := fun he => hi (BitVec.eq_of_toNat_eq he)
    have hlt := i.isLt
    have hone : (1 : Word).toNat = 1 := rfl
    simp only [BitVec.toInt_eq_toNat_cond, BitVec.toNat_add, hone]
    omega

section Loop

variable (p : Policy) (numQueues queueNum : Word) (top : ℕ → ℕ) (cnd : PredicatePair W)
  (queue : ℕ → List W)

/-- The loop of `get`. The remainder is that of unsigned numbers. For `cilkS` a queue is examined
by `test_and_get_front` if it is the own one and by `test_and_get_back` else. -/
def getLoop (i numAttempts : Word) : Option (Got W) :=
  if numAttempts.slt numQueues then
    let realI := i % numQueues
    let own := realI == queueNum
    match testAndGet p own (top realI.toNat) cnd (queue realI.toNat) with
    | some r => some ⟨[(realI.toNat, own)], some r.1, Function.update queue realI.toNat r.2⟩
    | none =>
      match increment i, _h : increment numAttempts with
      | some i', some numAttempts' => (getLoop i' numAttempts').map (·.after realI.toNat own)
      | _, _ => none
  else some ⟨[], none, queue⟩
termination_by (numQueues.toInt - numAttempts.toInt).toNat
decreasing_by
  have hlt := BitVec.slt_iff_toInt_lt.mp ‹_›
  have heq := toInt_increment _h
  omega

/-- `task_queue_set::get` -/
def getInt : Option (Got W) := getLoop p numQueues queueNum top cnd queue queueNum 0

end Loop

/-- The queues from `queueNum` on, in cyclic order. -/
def order (numQueues queueNum : ℕ) : List ℕ :=
  List.range' queueNum (numQueues - queueNum) ++ List.range queueNum

section Visits

variable (p : Policy) (queueNum : ℕ) (top : ℕ → ℕ) (cnd : PredicatePair W) (queue : ℕ → List W)

/-- The candidate of a queue. -/
def candidate (i : ℕ) : Option W := (queue i)[position p (i == queueNum) (top i) (queue i)]?

/-- The predicate that `get` applies to the candidate of a queue. -/
def pred (i : ℕ) : W → Bool := if i == queueNum then cnd.ownPred else cnd.stealPred

/-- Examine the queues of a list in turn. -/
def visit : List ℕ → Got W
  | [] => ⟨[], none, queue⟩
  | i :: is =>
    match testAndGet p (i == queueNum) (top i) cnd (queue i) with
    | some r => ⟨[(i, i == queueNum)], some r.1, Function.update queue i r.2⟩
    | none => (visit is).after i (i == queueNum)

/-- What a call of `get` does that examines the queues of a list in turn until it finds one whose
candidate has the predicate. -/
structure Scans (is : List ℕ) (g : Got W) : Prop where
  /-- the queues are examined in the order of the list, each as own or as other queue -/
  examined : g.examined <+: is.map fun i => (i, i == queueNum)
  /-- nothing is returned iff no candidate has its predicate -/
  null : g.task = none ↔
    ∀ i ∈ is, ∀ w ∈ candidate p queueNum top queue i, pred queueNum cnd i w = false
  /-- then all queues have been examined and none has changed -/
  unchanged : g.task = none →
    g.queue = queue ∧ g.examined = is.map fun i => (i, i == queueNum)
  /-- else the task is that of the first queue with such a candidate; it alone is removed -/
  found : ∀ w, g.task = some w → ∃ done i rest, is = done ++ i :: rest ∧
    (∀ j ∈ done, ∀ x ∈ candidate p queueNum top queue j, pred queueNum cnd j x = false) ∧
    candidate p queueNum top queue i = some w ∧ pred queueNum cnd i w ∧
    g.examined = (done ++ [i]).map (fun i => (i, i == queueNum)) ∧
    g.queue = Function.update queue i
      ((queue i).eraseIdx (position p (i == queueNum) (top i) (queue i)))

end Visits

variable {p : Policy} {queueNum : ℕ} {top : ℕ → ℕ} {cnd : PredicatePair W} {queue : ℕ → List W}
  {is : List ℕ} {i : ℕ}

theorem testAndGet_eq_none_iff_candidate :
    testAndGet p (i == queueNum) (top i) cnd (queue i) = none ↔
      ∀ w ∈ candidate p queueNum top queue i, pred queueNum cnd i w = false := by
  rw [testAndGet_eq_none_iff]
  refine forall₂_congr fun w _ => ?_
  unfold pred
  split <;> rfl

theorem visit_scans (is : List ℕ) :
    Scans p queueNum top cnd queue is (visit p queueNum top cnd queue is) := by
  induction is with
  | nil => exact ⟨List.prefix_rfl, by simp [visit], fun _ => ⟨rfl, rfl⟩, by simp [visit]⟩
  | cons i is ih =>
    cases hget : testAndGet p (i == queueNum) (top i) cnd (queue i) with
    | none =>
      have hi := testAndGet_eq_none_iff_candidate.mp hget
      simp only [visit, hget]
      refine ⟨?_, ?_, ?_, ?_⟩
      · exact (List.prefix_cons_inj _).mpr ih.examined
      · rw [List.forall_mem_cons]
        exact ih.null.trans (and_iff_right hi).symm
      · intro hnone
        obtain ⟨hqueue, hall⟩ := ih.unchanged hnone
        exact ⟨hqueue, congrArg (List.cons _) hall⟩
      · intro w hw
        obtain ⟨done, j, rest, rfl, hdone, hcand, hpred, hexamined, hqueue⟩ := ih.found w hw
        refine ⟨i :: done, j, rest, rfl, ?_, hcand, hpred, congrArg (List.cons _) hexamined, hqueue⟩
        exact List.forall_mem_cons.mpr ⟨hi, hdone⟩
    | some r =>
      obtain ⟨hcand, hpred, hleft⟩ := testAndGet_eq_some hget
      have hpred' : pred queueNum cnd i r.1 := by
        unfold pred
        split <;> simp_all
      simp only [visit, hget]
      refine ⟨?_, ?_, fun hnone => (nomatch hnone), ?_⟩
      · exact ⟨is.map _, rfl⟩
      · refine iff_of_false (by simp) ?_
        intro hall
        have := hall i (List.mem_cons_self ..) r.1 hcand
        rw [hpred'] at this
        cases this
      · intro w hw
        cases hw
        exact ⟨[], i, is, rfl, by simp, hcand, hpred', rfl, by rw [hleft]⟩

/-! ### The cyclic order -/

theorem order_eq_map {n q : ℕ} (hq : q < n) :
    order n q = (List.range n).map fun k => (q + k) % n := by
  apply List.ext_getElem
  · simp [order]
    omega
  · intro k hk hk'
    simp only [List.length_map, List.length_range] at hk'
    simp only [order, List.getElem_append, List.length_range', List.getElem_range',
      List.getElem_range, List.getElem_map]
    split
    next hlt => rw [Nat.mod_eq_of_lt (by omega), Nat.one_mul]
    next hge =>
      rw [show q + k = k - (n - q) + n by omega, Nat.add_mod_right, Nat.mod_eq_of_lt (by omega)]

theorem mem_order {n q i : ℕ} (hq : q < n) : i ∈ order n q ↔ i < n := by
  simp only [order, List.mem_append, List.mem_range'_1, List.mem_range]
  omega

theorem nodup_order (n q : ℕ) : (order n q).Nodup := by
  refine List.nodup_append.mpr ⟨List.nodup_range', List.nodup_range, ?_⟩
  intro i hi j hj
  rw [List.mem_range'_1] at hi
  rw [List.mem_range] at hj
  omega

theorem drop_order {n q k : ℕ} (hq : q < n) (hk : k < n) :
    (order n q).drop k = (q + k) % n :: (order n q).drop (k + 1) := by
  have hlen : k < (order n q).length := by
    rw [order_eq_map hq]
    simpa using hk
  rw [List.drop_eq_getElem_cons hlen]
  simp [order_eq_map hq]

/-! ### The loop follows it -/

section Loop

variable {numQueues own : Word}

theorem getLoop_eq (hn : numQueues.toNat < 2 ^ 30) (hown : own < numQueues) {k : ℕ}
    {i numAttempts : Word} (hk : k ≤ numQueues.toNat) (hi : i.toNat = own.toNat + k)
    (ha : numAttempts.toNat = k) : getLoop p numQueues own top cnd queue i numAttempts =
      some (visit p own.toNat top cnd queue ((order numQueues.toNat own.toNat).drop k)) := by
  have hq : own.toNat < numQueues.toNat := hown
  induction hm : numQueues.toNat - k generalizing k i numAttempts with
  | zero =>
    have hdone : numAttempts.slt numQueues = false := by
      rw [slt_iff (by omega) (by omega)]
      exact decide_eq_false (by omega)
    rw [getLoop, hdone, List.drop_eq_nil_of_le (by simp [order]; omega)]
    rfl
  | succ m ih =>
    have hlt : k < numQueues.toNat := by omega
    have hgo : numAttempts.slt numQueues = true := by
      rw [slt_iff (by omega) (by omega)]
      exact decide_eq_true (by omega)
    have hreal : (i % numQueues).toNat = (own.toNat + k) % numQueues.toNat := by
      rw [BitVec.toNat_umod, hi]
    have hbeq : (i % numQueues == own) = ((own.toNat + k) % numQueues.toNat == own.toNat) := by
      rw [Bool.eq_iff_iff, beq_iff_eq, beq_iff_eq, ← BitVec.toNat_inj, hreal]
    have hi' := increment_eq_some (i := i) (by omega)
    have ha' := increment_eq_some (i := numAttempts) (by omega)
    have hnexti : (i + 1).toNat = own.toNat + (k + 1) := by
      rw [toNat_succ (by omega), hi]
      rfl
    have hnexta : (numAttempts + 1).toNat = k + 1 := by
      rw [toNat_succ (by omega), ha]
    rw [getLoop, if_pos hgo, drop_order hq hlt, visit]
    simp only [hreal, hbeq]
    split
    next => rfl
    next =>
      split
      next i' numAttempts' h h' =>
        rw [hi', Option.some.injEq] at h
        rw [ha', Option.some.injEq] at h'
        subst h h'
        rw [ih (by omega) hnexti hnexta (by omega)]
        rfl
      next hno => exact (hno _ _ hi' ha').elim

/-- `get` of each of the four sets examines the queues cyclically from the own one on, each once,
and takes the candidate of the first one whose predicate holds. -/
theorem get_scans_cyclically (p : Policy) (hn : numQueues.toNat < 2 ^ 30) (hown : own < numQueues)
    (top : ℕ → ℕ) (cnd : PredicatePair W) (queue : ℕ → List W) :
    (order numQueues.toNat own.toNat).Nodup ∧
      (∀ i, i ∈ order numQueues.toNat own.toNat ↔ i < numQueues.toNat) ∧
      ∃ g, getInt p numQueues own top cnd queue = some g ∧
        Scans p own.toNat top cnd queue (order numQueues.toNat own.toNat) g := by
  refine ⟨nodup_order _ _, fun i => mem_order hown, _, ?_, visit_scans _⟩
  exact getLoop_eq hn hown (Nat.zero_le _) rfl rfl

/-- Three queues, of which the last has a task at its back that may be stolen. -/
def evenPair : PredicatePair ℕ := ⟨fun w => w = 0, fun w => w % 2 = 0⟩

theorem get_scans_cyclically_threeQueues :
    ∃ g, getInt .cilkS 3 1 (fun _ => 0) evenPair (fun i => [[2], [5, 0], [3, 4]].getD i []) =
        some g ∧
      Scans .cilkS 1 (fun _ => 0) evenPair (fun i => [[2], [5, 0], [3, 4]].getD i [])
        (order 3 1) g :=
  (get_scans_cyclically .cilkS (by decide) (by decide) _ _ _).2.2

theorem scan_eq_visit {n q attempts i : ℕ} : scan p n q top cnd queue attempts i =
    let g := visit p q top cnd queue ((List.range attempts).map fun k => (i + k) % n)
    g.task.map fun w => (w, g.queue) := by
  induction attempts generalizing i with
  | zero => rfl
  | succ attempts ih =>
    have htail : ((List.range attempts).map fun k => (i + 1 + k) % n) =
        (List.range attempts).map ((fun k => (i + k) % n) ∘ Nat.succ) := by
      refine List.map_congr_left fun k _ => ?_
      simp only [Function.comp_apply]
      rw [show i + 1 + k = i + k.succ by omega]
    rw [List.range_succ_eq_map, List.map_cons, List.map_map, ← htail, scan]
    simp only [visit, Nat.add_zero]
    cases testAndGet p (i % n == q) (top (i % n)) cnd (queue (i % n)) with
    | some r => rfl
    | none => exact ih

theorem get_eq_visit {n q : ℕ} (hq : q < n) : get p n q top cnd queue =
    let g := visit p q top cnd queue (order n q)
    g.task.map fun w => (w, g.queue) := by
  rw [get, scan_eq_visit, order_eq_map hq]

/-- The indices of `QueueSet.get` stand for the integers of the code. -/
theorem getInt_eq_get (hn : numQueues.toNat < 2 ^ 30) (hown : own < numQueues) :
    (getInt p numQueues own top cnd queue).map (fun g => g.task.map fun w => (w, g.queue)) =
      some (get p numQueues.toNat own.toNat top cnd queue) := by
  rw [getInt, getLoop_eq hn hown (Nat.zero_le _) rfl rfl, List.drop_zero, get_eq_visit hown]
  rfl

end Loop

end PFunc.QueueSet
