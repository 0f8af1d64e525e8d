import PFunc.LabelledRuns
import PFunc.Event
import Mathlib.Algebra.Order.BigOperators.Group.Finset
import Mathlib.Data.Fintype.BigOperators

/-!
# The notifications of a nested task

A nested task spawned with `n` notifications and `n` waits on it. `progress_wait` evaluates
the completion predicate at two sites of `get_task`, and once more in each iteration when
the caller is the main thread. What the attempts find in the queues is left to the labels.
-/

namespace PFunc.NestedWait

open LabelledRuns Atomics Event

/-- Where the completion predicate is evaluated. -/
inductive Site where
  /-- the loop of the main thread -/
  | yielding
  /-- the inner loop of `get_task` -/
  | loop (numAttempts : ℕ)
  /-- the exit test of `get_task`; whether `return_value` is a task -/
  | exit (found : Bool)
  deriving DecidableEq

inductive Pc where
  | notCalled
  | testing (site : Site) (pc : EventBase.TestPc)
  | getting (numAttempts : ℕ)
  /-- a task from the queues, up to its own `notify` -/
  | running
  | returned
  deriving DecidableEq

/-- At the second load of `event_state`. -/
def Pc.reloads : Pc → Bool
  | .testing _ .inactive => true
  | _ => false

/-- At the decrement of `num_waiters`. -/
def Pc.decrements : Pc → Bool
  | .testing _ .decrement => true
  | _ => false

inductive Label (n : Word) where
  /-- the next step of a wait; `found` is what `task_queue->get` answers -/
  | next (i : Fin n.toNat) (found : Bool)
  | notify
  deriving DecidableEq

/-- `taken` counts the decrements of `num_waiters` made by each wait. -/
structure State (n : Word) where
  event : EventBase
  notified : Bool
  pc : Fin n.toNat → Pc
  taken : Fin n.toNat → ℕ

variable {n : Word}

def State.goto (s : State n) (i : Fin n.toNat) (c : Pc) : State n :=
  { s with pc := Function.update s.pc i c }

def State.take (s : State n) (i : Fin n.toNat) : State n :=
  { s with taken := Function.update s.taken i (s.taken i + 1) }

/-- The call of `get_task`. -/
def getTask (maxAttempts : ℕ) : Pc := .testing (.loop maxAttempts) .incomplete

/-- What the caller does with the answer of the completion predicate. -/
def tested (maxAttempts : ℕ) : Site → Bool → Pc
  | .yielding, true => .returned
  | .yielding, false => .testing .yielding .incomplete
  | .loop _, true => .testing (.exit false) .incomplete
  | .loop 0, false => .testing (.exit false) .incomplete
  | .loop (k + 1), false => .getting k
  | .exit true, _ => .running
  | .exit false, true => .returned
  | .exit false, false => getTask (if 0 = maxAttempts / 2 then 1 else maxAttempts / 2)

/-- The next step of `progress_wait`; `main` says whether the main thread makes the call. -/
def progressWait (maxAttempts : ℕ) (main : Bool) (e : EventBase) (found : Bool) :
    Pc → Option (EventBase × Pc)
  | .notCalled =>
    some (e, if main then .testing .yielding .incomplete else getTask maxAttempts)
  | .testing site pc =>
    let r := e.test pc
    some (r.1, match r.2 with
      | .inl pc' => .testing site pc'
      | .inr answer => tested maxAttempts site answer)
  | .getting k =>
    some (e, if found then .testing (.exit true) .incomplete else .testing (.loop k) .incomplete)
  | .running => some (e, getTask maxAttempts)
  | .returned => none

/-- `main` is the wait made by the main thread, if one is. -/
def next (maxAttempts : ℕ) (main : Option (Fin n.toNat)) (s : State n) (i : Fin n.toNat)
    (found : Bool) : Option (State n) :=
  (progressWait maxAttempts (main = some i) s.event found (s.pc i)).map fun r =>
    { (if (s.pc i).decrements then s.take i else s).goto i r.2 with event := r.1 }

def step (maxAttempts : ℕ) (main : Option (Fin n.toNat)) (s : State n) :
    Label n → Option (State n)
  | .next i found => next maxAttempts main s i found
  | .notify =>
    if s.notified then none else some { s with event := s.event.complete, notified := true }

/-- The task has been spawned, and nobody waits for it yet. -/
def system (n : Word) (maxAttempts : ℕ) (main : Option (Fin n.toNat)) :
    System (State n) (Label n) where
  initial := ⟨.reset n, false, fun _ => .notCalled, fun _ => 0⟩
  step := step maxAttempts main

/-- Each wait takes one notification, and the event becomes inactive with the last of them. -/
structure State.OneEach (s : State n) : Prop where
  returned : ∀ i, s.pc i = .returned → s.taken i = 1
  taken_le : ∀ i, s.taken i ≤ 1
  complete : s.notified → ∑ i, s.taken i < n.toNat → s.event.eventState = activeComplete
  inactive : s.event.eventState = Event.inactive → ∑ i, s.taken i = n.toNat
  /-- between the last decrement and the store that follows it -/
  last : ∑ i, s.taken i = n.toNat →
    s.event.eventState = Event.inactive ∨ ∃ i site, s.pc i = .testing site .deactivate
  count : s.event.numWaiters.toNat + ∑ i, s.taken i = n.toNat
  not_negative : 0 ≤ n.toInt → 0 ≤ s.event.numWaiters.toInt

/-- A wait that has taken its notification finds the event inactive in its later tests. -/
def Spent (s : State n) : Label n → Prop
  | .next i _ => (s.pc i).reloads → s.taken i = 1 → s.event.eventState = Event.inactive
  | .notify => True

instance (s : State n) : ∀ l, Decidable (Spent s l)
  | .next i _ => inferInstanceAs (Decidable ((s.pc i).reloads → s.taken i = 1 →
      s.event.eventState = Event.inactive))
  | .notify => inferInstanceAs (Decidable True)

/-! ### Every evaluation takes at most one notification -/

/-- How many notifications a wait may have taken. -/
def Pc.Consumes : Pc → ℕ → Prop
  | .notCalled, k => k = 0
  | .testing _ .decrement, k => k = 0
  | .testing _ .deactivate, k => k = 1
  | .returned, k => k = 1
  | _, k => k ≤ 1

/-- Past the first load of a test. -/
def Pc.past : Pc → Bool
  | .testing _ .incomplete => false
  | .testing _ _ => true
  | _ => false

theorem Pc.Consumes.le_one {c : Pc} {k : ℕ} (h : c.Consumes k) : k ≤ 1 := by
  unfold Pc.Consumes at h
  split at h <;> omega

variable {maxAttempts : ℕ} {main : Option (Fin n.toNat)} {s s' : State n} {i : Fin n.toNat}

theorem tested_consumes {site : Site} {answer : Bool} {k : ℕ} (hk : k ≤ 1)
    (ha : answer = true → k = 1) : (tested maxAttempts site answer).Consumes k := by
  unfold tested
  split
  · exact ha rfl
  · exact hk
  · exact hk
  · exact hk
  · exact hk
  · exact hk
  · exact ha rfl
  · exact hk

theorem tested_not_past (maxAttempts : ℕ) (site : Site) (answer : Bool) :
    (tested maxAttempts site answer).past = false := by
  unfold tested
  split <;> rfl

theorem State.sum_take (s : State n) (i : Fin n.toNat) : ∑ j, (s.take i).taken j = ∑ j, s.taken j + 1 := by
  have hsum := Finset.add_sum_erase Finset.univ s.taken (Finset.mem_univ i)
  change ∑ j, Function.update s.taken i (s.taken i + 1) j = _
  rw [Finset.sum_update_of_mem (Finset.mem_univ i), Finset.sdiff_singleton_eq_erase]
  omega

structure State.Consuming (s : State n) : Prop where
  count : s.event.numWaiters.toNat + ∑ i, s.taken i = n.toNat
  consumes : ∀ i, (s.pc i).Consumes (s.taken i)
  past : ∀ i, (s.pc i).past → s.notified
  taken : ∀ i, 0 < s.taken i → s.notified
  incomplete : s.event.eventState = activeIncomplete ↔ s.notified = false
  complete : s.notified → ∑ i, s.taken i < n.toNat → s.event.eventState = activeComplete
  inactive : s.event.eventState = Event.inactive → ∑ i, s.taken i = n.toNat
  stores : ∀ i site, s.pc i = .testing site .deactivate → ∑ i, s.taken i = n.toNat
  last : ∑ i, s.taken i = n.toNat →
    s.event.eventState = Event.inactive ∨ ∃ i site, s.pc i = .testing site .deactivate

namespace State.Consuming

variable (h : s.Consuming)

include h

theorem taken_le (i : Fin n.toNat) : s.taken i ≤ 1 := (h.consumes i).le_one

theorem sum_erase_le : ∑ j ∈ Finset.univ.erase i, s.taken j ≤ n.toNat - 1 := by
  have hle := Finset.sum_le_card_nsmul (Finset.univ.erase i) s.taken 1 fun j _ => h.taken_le j
  rwa [Finset.card_erase_of_mem (Finset.mem_univ i), Finset.card_univ, Fintype.card_fin,
    nsmul_one] at hle

/-- While one wait has taken none, not all are taken. -/
theorem sum_lt (hi : s.taken i = 0) : ∑ j, s.taken j < n.toNat := by
  have hrest := h.sum_erase_le (i := i)
  have hsum := Finset.add_sum_erase Finset.univ s.taken (Finset.mem_univ i)
  have hpos := i.pos
  omega

theorem taken_of_sum (hsum : ∑ j, s.taken j = n.toNat) (i : Fin n.toNat) : s.taken i = 1 := by
  have hle := h.taken_le i
  by_contra hne
  have := h.sum_lt (i := i) (by omega)
  omega

/-- A step of a wait that touches neither the event nor the count. -/
theorem goto {c : Pc} (hi : ∀ site, s.pc i ≠ .testing site .deactivate)
    (hc : c.Consumes (s.taken i)) (hp : c.past = true → s.notified = true ∧
      ∀ site, c ≠ .testing site .deactivate) : (s.goto i c).Consuming := by
  refine { h with consumes := ?_, past := ?_, stores := ?_, last := ?_ }
  · apply Function.forall_update_iff s.pc (fun j c => c.Consumes (s.taken j)) |>.mpr
    exact ⟨hc, fun j _ => h.consumes j⟩
  · apply Function.forall_update_iff s.pc (fun _ c => c.past = true → s.notified = true) |>.mpr
    exact ⟨fun hpast => (hp hpast).1, fun j _ => h.past j⟩
  · apply Function.forall_update_iff s.pc
      (fun _ c => ∀ site, c = .testing site .deactivate → ∑ j, s.taken j = n.toNat) |>.mpr
    constructor
    · rintro site rfl
      exact absurd rfl ((hp rfl).2 site)
    · exact fun j _ => h.stores j
  · intro hsum
    apply (h.last hsum).imp id
    rintro ⟨j, site, hj⟩
    have hne : j ≠ i := by
      rintro rfl
      exact hi site hj
    exact ⟨j, site, (Function.update_of_ne hne _ _).trans hj⟩

theorem goto_outside {c : Pc} (hi : ∀ site pc, s.pc i ≠ .testing site pc)
    (hc : c.Consumes (s.taken i)) (hp : c.past = false) : (s.goto i c).Consuming := by
  apply h.goto (fun site => hi site _) hc
  intro hpast
  rw [hp] at hpast
  cases hpast

/-- The store of the last wait. -/
theorem deactivate {site : Site} (hi : s.pc i = .testing site .deactivate) {c : Pc}
    (hc : c.Consumes 1) : State.Consuming { s.goto i c with event := s.event.deactivate } := by
  have hsum := h.stores i site hi
  have hnotified : s.notified = true := by
    apply h.past i
    rw [hi]
    rfl
  refine { h with consumes := ?_, past := ?_, incomplete := ?_, complete := ?_, inactive := ?_,
                  stores := ?_, last := ?_ }
  · apply Function.forall_update_iff s.pc (fun j c => c.Consumes (s.taken j)) |>.mpr
    rw [h.taken_of_sum hsum]
    exact ⟨hc, fun j _ => h.consumes j⟩
  · intro j _
    exact hnotified
  · apply iff_of_false
    · exact inactive_ne_incomplete
    · exact ne_of_eq_of_ne hnotified (by decide)
  · intro _ hlt
    exact absurd hsum hlt.ne
  · intro _
    exact hsum
  · intro _ _ _
    exact hsum
  · intro _
    exact .inl rfl

/-- The decrement of a wait that had taken none. -/
theorem decrement (maxAttempts : ℕ) {site : Site} (hi : s.pc i = .testing site .decrement) {c : Pc}
    (hc : c = if s.event.numWaiters = 1 then .testing site .deactivate
      else tested maxAttempts site true) :
    State.Consuming { (s.take i).goto i c with event := s.event.takeNotice.1 } := by
  have hzero : s.taken i = 0 := by
    have := h.consumes i
    rwa [hi] at this
  have hlt := h.sum_lt hzero
  have hcount := h.count
  have hpos : 0 < s.event.numWaiters.toNat := by omega
  have hdec := toNat_decrement hpos
  have hsum := s.sum_take i
  have hone : s.event.numWaiters = 1 ↔ s.event.numWaiters.toNat = 1 := by
    rw [← BitVec.toNat_inj]
    rfl
  have hnotified : s.notified = true := by
    apply h.past i
    rw [hi]
    rfl
  have hlast : n.toNat = ∑ j, (s.take i).taken j → c = .testing site .deactivate := by
    intro hfull
    rw [hc, if_pos]
    apply hone.mpr
    omega
  refine { count := ?_, consumes := ?_, past := fun _ _ => hnotified, taken := fun _ _ => hnotified,
           incomplete := ?_, complete := ?_, inactive := ?_, stores := ?_, last := ?_ }
  · change (fetchAndAdd s.event.numWaiters (-1)).1.toNat + ∑ j, (s.take i).taken j = _
    omega
  · intro j
    by_cases hj : j = i
    · subst j
      simp only [State.goto, State.take, Function.update_self, hzero, hc]
      split
      · rfl
      · exact tested_consumes le_rfl fun _ => rfl
    · simp only [State.goto, State.take, Function.update_of_ne hj]
      exact h.consumes j
  · rw [EventBase.takeNotice_eventState]
    exact h.incomplete
  · intro _ _
    rw [EventBase.takeNotice_eventState]
    exact h.complete hnotified hlt
  · rw [EventBase.takeNotice_eventState]
    intro hinactive
    exact absurd (h.inactive hinactive) hlt.ne
  · apply Function.forall_update_iff s.pc (fun _ c => ∀ site, c = .testing site .deactivate →
      ∑ j, (s.take i).taken j = n.toNat) |>.mpr
    constructor
    · rintro site' rfl
      by_cases hw : s.event.numWaiters = 1
      · have := hone.mp hw
        omega
      · rw [if_neg hw] at hc
        have := tested_not_past maxAttempts site true
        rw [← hc] at this
        cases this
    · intro j _ site' hj
      exact absurd (h.stores j site' hj) hlt.ne
  · intro hfull
    refine .inr ⟨i, site, ?_⟩
    rw [← hlast hfull.symm]
    exact Function.update_self ..

end State.Consuming

theorem consuming_initial (hn : n ≠ 0) :
    (system n maxAttempts main).initial.Consuming := by
  have hpos : n.toNat ≠ 0 := by
    intro hzero
    exact hn (BitVec.eq_of_toNat_eq hzero)
  refine { count := ?_, consumes := ?_, past := ?_, taken := ?_, incomplete := ?_, complete := ?_,
           inactive := ?_, stores := ?_, last := ?_ } <;>
    simp [system, Pc.Consumes, Pc.past, EventBase.reset, activeIncomplete, Event.inactive,
      hpos.symm]

theorem consuming_notify (h : s.Consuming) (hs : step maxAttempts main s .notify = some s') :
    s'.Consuming := by
  simp only [step] at hs
  split at hs
  · cases hs
  · rename_i hn
    cases hs
    have htaken : ∀ i, s.taken i = 0 := by
      intro i
      have := h.taken i
      grind
    refine { h with past := fun _ _ => rfl, taken := fun _ _ => rfl, incomplete := ?_,
                    complete := fun _ _ => rfl, inactive := ?_, last := ?_ }
    · exact iff_of_false complete_ne_incomplete Bool.noConfusion
    · intro hinactive
      exact absurd hinactive complete_ne_inactive
    · intro hsum
      apply (h.last hsum).imp_left
      intro hinactive
      rw [h.incomplete.mpr (by simpa using hn)] at hinactive
      exact absurd hinactive.symm inactive_ne_incomplete

theorem consuming_test (maxAttempts : ℕ) {found : Bool} {site : Site} {pc : EventBase.TestPc} (h : s.Consuming)
    (hd : Spent s (.next i found)) (hpc : s.pc i = .testing site pc) :
    State.Consuming { (if (Pc.testing site pc).decrements then s.take i else s).goto i
        (match (s.event.test pc).2 with
          | .inl pc' => .testing site pc'
          | .inr answer => tested maxAttempts site answer) with
      event := (s.event.test pc).1 } := by
  have hi := h.consumes i
  rw [hpc] at hi
  cases pc with
  | incomplete =>
    have hstay : ∀ site', s.pc i ≠ .testing site' .deactivate := by simp [hpc]
    by_cases he : s.event.eventState = activeIncomplete
    · simp only [EventBase.test, if_pos he, Pc.decrements, Bool.false_eq_true, if_false]
      apply h.goto hstay
      · exact tested_consumes hi Bool.noConfusion
      · simp [tested_not_past]
    · have hnotified : s.notified = true := by
        rw [h.incomplete] at he
        simpa using he
      simp only [EventBase.test, if_neg he, Pc.decrements, Bool.false_eq_true, if_false]
      exact h.goto hstay hi fun _ => ⟨hnotified, by simp⟩
  | inactive =>
    have hstay : ∀ site', s.pc i ≠ .testing site' .deactivate := by simp [hpc]
    have hnotified : s.notified = true := by
      apply h.past i
      rw [hpc]
      rfl
    by_cases he : s.event.eventState = Event.inactive
    · have hone := h.taken_of_sum (h.inactive he) i
      simp only [EventBase.test, if_pos he, Pc.decrements, Bool.false_eq_true, if_false]
      apply h.goto hstay
      · exact tested_consumes hone.le fun _ => hone
      · simp [tested_not_past]
    · have hzero : s.taken i = 0 := by
        have hone : s.taken i ≠ 1 := fun htaken => he (hd (by rw [hpc]; rfl) htaken)
        have := h.taken_le i
        omega
      simp only [EventBase.test, if_neg he, Pc.decrements, Bool.false_eq_true, if_false]
      exact h.goto hstay hzero fun _ => ⟨hnotified, by simp⟩
  | decrement =>
    simp only [EventBase.test, Pc.decrements, if_true]
    apply h.decrement maxAttempts hpc
    have hold : s.event.takeNotice.2 = s.event.numWaiters := rfl
    rw [hold]
    by_cases hw : s.event.numWaiters = 1
    · rw [if_pos hw, if_pos hw]
    · rw [if_neg hw, if_neg hw]
  | deactivate =>
    simp only [EventBase.test, Pc.decrements, Bool.false_eq_true, if_false]
    exact h.deactivate hpc (tested_consumes le_rfl fun _ => rfl)

theorem consuming_next {found : Bool} (h : s.Consuming) (hd : Spent s (.next i found))
    (hs : next maxAttempts main s i found = some s') : s'.Consuming := by
  have hi := h.consumes i
  unfold next at hs
  cases hpc : s.pc i with
  | notCalled =>
    simp only [hpc, progressWait, Option.map_some, Option.some.injEq] at hs
    subst hs
    rw [hpc] at hi
    apply h.goto_outside
    · simp [hpc]
    · split <;> exact hi.le.trans zero_le_one
    · split <;> rfl
  | testing site pc =>
    have htest := consuming_test maxAttempts h hd hpc
    simp only [hpc, progressWait, Option.map_some, Option.some.injEq] at hs
    subst hs
    exact htest
  | getting k =>
    simp only [hpc, progressWait, Option.map_some, Option.some.injEq] at hs
    subst hs
    rw [hpc] at hi
    apply h.goto_outside
    · simp [hpc]
    · split <;> exact hi
    · split <;> rfl
  | running =>
    simp only [hpc, progressWait, Option.map_some, Option.some.injEq] at hs
    subst hs
    rw [hpc] at hi
    apply h.goto_outside
    · simp [hpc]
    · exact hi
    · rfl
  | returned => simp [hpc, progressWait] at hs

theorem consuming_step {l : Label n} (h : s.Consuming) (hd : Spent s l)
    (hs : step maxAttempts main s l = some s') : s'.Consuming := by
  cases l with
  | next i found => exact consuming_next h hd hs
  | notify => exact consuming_notify h hs

theorem consuming_reachable (hn : n ≠ 0) (hr : (system n maxAttempts main).Reachable Spent s) :
    s.Consuming := by
  apply hr.invariant
  · exact consuming_initial hn
  · intro s l t h hd hs
    exact consuming_step h hd hs

theorem State.Consuming.oneEach (h : s.Consuming) : s.OneEach := by
  refine { h with returned := ?_, taken_le := h.taken_le, not_negative := ?_ }
  · intro i hi
    have := h.consumes i
    rwa [hi] at this
  · have hcount := h.count
    simp only [BitVec.toInt_eq_toNat_cond]
    omega

theorem one_each (n : Word) (hn : n ≠ 0) (maxAttempts : ℕ) (main : Option (Fin n.toNat))
    (s : State n) (hr : (system n maxAttempts main).Reachable Spent s) : s.OneEach :=
  (consuming_reachable hn hr).oneEach

/-- The first `k` steps of a wait, or its next ones; the queues are empty. -/
def steps (i : Fin (2 : Word).toNat) (k : ℕ) : List (Label 2) := .replicate k (.next i false)

theorem zero_lt : 0 < (2 : Word).toNat := by decide

theorem one_lt : 1 < (2 : Word).toNat := by decide

/-- The loop test of wait 0 takes a notification, wait 1 takes the other one and stores, and
only then does wait 0 make its exit test. -/
def patientRun : List (Label 2) :=
  .notify :: steps ⟨0, zero_lt⟩ 4 ++ steps ⟨1, one_lt⟩ 7 ++ steps ⟨0, zero_lt⟩ 2

theorem one_each_patientRun :
    ((system 2 4 none).final patientRun).OneEach ∧
      ∀ i, ((system 2 4 none).final patientRun).pc i = .returned :=
  ⟨one_each 2 (by decide) 4 none _ (System.reachable_final (by decide)), by decide⟩

/-- Wait 0 takes one notification in the loop and the other one in its exit test. -/
def doubleRun : List (Label 2) := .notify :: steps ⟨0, zero_lt⟩ 8

theorem takes_two_doubleRun :
    ¬∀ (n : Word), n ≠ 0 → ∀ (maxAttempts : ℕ) (main : Option (Fin n.toNat)) (s : State n),
      (system n maxAttempts main).Reachable (fun _ _ => True) s → s.OneEach := by
  intro h
  have hr : (system 2 4 none).Reachable (fun _ _ => True) ((system 2 4 none).final doubleRun) :=
    System.reachable_final (by decide)
  have hle := (h 2 (by decide) 4 none _ hr).taken_le ⟨0, by decide⟩
  exact absurd hle (by decide)

/-- The only wait for a single notification leaves the event inactive before it tests again. -/
theorem spent_of_one {s : State 1} (h : s.Consuming) (l : Label 1) : Spent s l := by
  cases l with
  | next i found =>
    intro hreload htaken
    have hsum : ∑ j, s.taken j = (1 : Word).toNat := by
      have hsingle : Finset.univ = {i} := by
        apply Finset.eq_singleton_iff_unique_mem.mpr
        exact ⟨Finset.mem_univ i, fun j _ => Subsingleton.elim (α := Fin 1) j i⟩
      rw [hsingle, Finset.sum_singleton, htaken]
      rfl
    apply (h.last hsum).resolve_right
    rintro ⟨j, site, hj⟩
    have hij : j = i := Subsingleton.elim (α := Fin 1) j i
    rw [hij] at hj
    rw [hj] at hreload
    cases hreload
  | notify => trivial

theorem one_each_of_one {maxAttempts : ℕ} {main : Option (Fin (1 : Word).toNat)} {s : State 1}
    (hr : (system 1 maxAttempts main).Reachable (fun _ _ => True) s) : s.OneEach := by
  apply State.Consuming.oneEach
  apply hr.invariant
  · exact consuming_initial (by decide)
  · intro s l t h _ hs
    exact consuming_step h (spent_of_one h l) hs

end PFunc.NestedWait
