import PFunc.WaitableEvent
import Mathlib.Data.Finset.Card

/-!
# The count-down of the waiters

`test` and `wait` both take one notice each from the count of an event that is complete. The
last `test` finds a count of 1 and makes the event inactive. `wait` looks for a count of 0
instead, which none of its calls finds, so the last of them leaves the event complete.
-/

namespace PFunc.Event.EventBase

open Atomics

/-- So many calls of `test` one after the other, and whether all were successful. -/
def testTimes : ℕ → EventBase → EventBase × Bool
  | 0, e => (e, true)
  | k + 1, e =>
    let r := e.testAlone
    let r' := testTimes k r.1
    (r'.1, r.2 && r'.2)

theorem testAlone_complete {w : Word} (hw : w ≠ 1) :
    testAlone ⟨activeComplete, w⟩ = (⟨activeComplete, (fetchAndAdd w (-1)).1⟩, true) := by
  have hr : (takeNotice ⟨activeComplete, w⟩).2 ≠ 1 := hw
  simp only [testAlone, if_neg complete_ne_incomplete, if_neg complete_ne_inactive, if_neg hr]
  rfl

theorem takeNotice_numWaiters {e : EventBase} (h : 0 < e.numWaiters.toNat) :
    e.takeNotice.1.numWaiters.toNat = e.numWaiters.toNat - 1 := by
  simp only [takeNotice]
  exact toNat_decrement h

/-- The last of the calls makes the event inactive. -/
theorem testTimes_complete {k : ℕ} {w : Word} (hw : w.toNat = k + 1) :
    testTimes (k + 1) ⟨activeComplete, w⟩ = (⟨inactive, 0⟩, true) := by
  induction k generalizing w with
  | zero =>
    have hone : w = 1 := BitVec.eq_of_toNat_eq hw
    subst hone
    decide
  | succ k ih =>
    have hne : w ≠ 1 := by
      intro he
      rw [he] at hw
      simp at hw
    have hdec : (fetchAndAdd w (-1)).1.toNat = k + 1 := by
      rw [toNat_decrement (by omega)]
      omega
    rw [testTimes, testAlone_complete hne, ih hdec]
    rfl

end PFunc.Event.EventBase

namespace PFunc.WaitableEvent

open LabelledRuns Atomics Event Finset

variable {W N : Type} [DecidableEq W] {P : Points W N} {s : Generations W N} {n : Word}

/-- The calls of `wait` that have returned. -/
def Generations.returned (P : Points W N) (s : Generations W N) (n : Word) : Finset ℕ :=
  {i ∈ range n.toNat | s.waits i = P.returned}

theorem Generations.mem_returned {i : ℕ} :
    i ∈ s.returned P n ↔ i < n.toNat ∧ s.waits i = P.returned := by
  simp [Generations.returned]

omit [DecidableEq W] in
/-- A call moves on to a point that all calls may be at. -/
theorem Generations.forall_goto {A : W → Prop} (h : ∀ i, A (s.waits i)) {e : EventBase} (i : ℕ)
    {pc : W} (hpc : A pc) (j : ℕ) : A ((Generations.goto { s with event := e } i pc).waits j) := by
  by_cases hj : j = i
  · subst hj
    simpa [Generations.goto] using hpc
  · simpa [Generations.goto, hj] using h j

omit [DecidableEq W] in
/-- One more call returns. -/
theorem update_first (notCalled returned : W) (k : ℕ) :
    Function.update (fun i => if i < k then returned else notCalled) k returned =
      fun i => if i < k + 1 then returned else notCalled := by
  funext i
  by_cases hi : i = k
  · subst hi
    simp
  · have hiff : i < k + 1 ↔ i < k := by omega
    simp [hi, hiff]

/-- The event is complete, and each call that has returned has taken one notice. -/
structure Counting (P : Points W N) (n : Word) (s : Generations W N) : Prop where
  quota : s.quota = n.toNat
  complete : s.event.eventState = activeComplete
  count : s.event.numWaiters.toNat + #(s.returned P n) = n.toNat
  idle : ∀ i, s.quota ≤ i → s.waits i = P.notCalled

namespace Counting

/-- No call has been made after a `reset` and a whole `notify`. -/
theorem announced (s : Generations W N) (n : Word) {asleep woken : W} {g : ℕ} {pc pc' : N}
    (hasleep : P.notCalled ≠ asleep) (hret : P.notCalled ≠ P.returned) :
    Counting P n (((s.reset P.notCalled n).store g pc).wakeAll asleep woken g pc') where
  quota := rfl
  complete := rfl
  count := by
    simp [Generations.wakeAll, Generations.store, Generations.reset, Generations.returned,
      EventBase.reset, EventBase.complete, hasleep, hret]
  idle := by
    intro i _
    simp [Generations.wakeAll, Generations.store, Generations.reset, hasleep]

theorem lt_quota (h : Counting P n s) {i : ℕ} (hi : s.waits i ≠ P.notCalled) : i < s.quota := by
  by_contra hge
  exact hi (h.idle i (by omega))

theorem idle_goto (h : Counting P n s) {i : ℕ} (hlt : i < s.quota) (pc : W) {j : ℕ}
    (hj : s.quota ≤ j) : Function.update s.waits i pc j = P.notCalled := by
  have hne : j ≠ i := by omega
  rw [Function.update_of_ne hne]
  exact h.idle j hj

theorem goto (h : Counting P n s) {i : ℕ} {pc : W} (hlt : i < s.quota)
    (hi : s.waits i ≠ P.returned) (hpc : pc ≠ P.returned) : Counting P n (s.goto i pc) where
  quota := h.quota
  complete := h.complete
  idle := fun _ => h.idle_goto hlt pc
  count := by
    have hsame : (s.goto i pc).returned P n = s.returned P n := by
      ext j
      by_cases hj : j = i
      · subst hj
        simp [Generations.mem_returned, Generations.goto, hi, hpc]
      · simp [Generations.mem_returned, Generations.goto, hj]
    rw [hsame]
    exact h.count

/-- A call that has not returned finds a notice to take. -/
theorem numWaiters_pos (h : Counting P n s) {i : ℕ} (hlt : i < s.quota)
    (hi : s.waits i ≠ P.returned) : 0 < s.event.numWaiters.toNat := by
  have hsub : s.returned P n ⊆ (range n.toNat).erase i := by
    intro j hj
    rw [Generations.mem_returned] at hj
    refine mem_erase.mpr ⟨?_, mem_range.mpr hj.1⟩
    intro he
    exact hi (he ▸ hj.2)
  have hmem : i ∈ range n.toNat := mem_range.mpr (h.quota ▸ hlt)
  have hle := card_le_card hsub
  have hcount := h.count
  rw [card_erase_of_mem hmem, card_range] at hle
  rw [mem_range] at hmem
  omega

/-- The decrement of `wait` never finds the count at 0. -/
theorem takeNotice_ne (h : Counting P n s) {i : ℕ} (hlt : i < s.quota)
    (hi : s.waits i ≠ P.returned) : s.event.takeNotice.2 ≠ 0 := by
  have hpos := h.numWaiters_pos hlt hi
  intro he
  change s.event.numWaiters = 0 at he
  rw [he] at hpos
  simp at hpos

/-- A call takes a notice and returns. -/
theorem take (h : Counting P n s) {e : EventBase} {i : ℕ} (hlt : i < s.quota)
    (hi : s.waits i ≠ P.returned) (hstate : e.eventState = s.event.eventState)
    (hnotice : e.numWaiters.toNat + 1 = s.event.numWaiters.toNat) :
    Counting P n (Generations.goto { s with event := e } i P.returned) where
  quota := h.quota
  complete := hstate.trans h.complete
  idle := fun _ => h.idle_goto hlt P.returned
  count := by
    have hmore : (Generations.goto { s with event := e } i P.returned).returned P n =
        insert i (s.returned P n) := by
      ext j
      by_cases hj : j = i
      · subst hj
        simp [Generations.mem_returned, Generations.goto, ← h.quota, hlt]
      · simp [Generations.mem_returned, Generations.goto, hj]
    have hnew : i ∉ s.returned P n := by simp [Generations.mem_returned, hi]
    have hcount := h.count
    rw [hmore, card_insert_of_notMem hnew]
    simp only [Generations.goto]
    omega

theorem takeNotice (h : Counting P n s) {i : ℕ} (hlt : i < s.quota)
    (hi : s.waits i ≠ P.returned) :
    Counting P n (Generations.goto { s with event := s.event.takeNotice.1 } i P.returned) := by
  have hpos := h.numWaiters_pos hlt hi
  apply h.take hlt hi (EventBase.takeNotice_eventState _)
  rw [EventBase.takeNotice_numWaiters hpos]
  omega

theorem numWaiters_eq_zero (h : Counting P n s) (hall : ∀ i < n.toNat, s.waits i = P.returned) :
    s.event.numWaiters = 0 := by
  have hfull : s.returned P n = range n.toNat := by
    refine filter_true_of_mem ?_
    intro i hi
    exact hall i (mem_range.mp hi)
  have hcount := h.count
  rw [hfull, card_range] at hcount
  apply BitVec.eq_of_toNat_eq
  simp
  omega

end Counting

/-- The state is complete throughout, and all notices are taken in the end. -/
def StaysComplete (P : Points W N) (n : Word) (s : Generations W N) : Prop :=
  s.event.eventState = activeComplete ∧
    ((∀ i < n.toNat, s.waits i = P.returned) → s.event.numWaiters = 0)

theorem Counting.staysComplete (h : Counting P n s) : StaysComplete P n s :=
  ⟨h.complete, h.numWaiters_eq_zero⟩

/-- The event is inactive once all calls have returned. -/
def InactiveWithLast (P : Points W N) (n : Word) (s : Generations W N) : Prop :=
  (∀ i < n.toNat, s.waits i = P.returned) → s.event = ⟨inactive, 0⟩

omit [DecidableEq W] in
theorem StaysComplete.not_inactiveWithLast (h : StaysComplete P n s)
    (hall : ∀ i < n.toNat, s.waits i = P.returned) : ¬InactiveWithLast P n s := by
  intro hin
  have hstate := h.1
  rw [hin hall] at hstate
  exact complete_ne_inactive hstate.symm

namespace Futex

/-- The calls of `wait` alone move on. -/
def OnlyWaits (_ : State) : Label → Prop
  | .wait _ => True
  | .tick _ => True
  | .leave _ => True
  | _ => False

instance (s : State) : ∀ l, Decidable (OnlyWaits s l)
  | .wait _ | .tick _ | .leave _ => inferInstanceAs (Decidable True)
  | .reset _ | .notify _ | .wake _ => inferInstanceAs (Decidable False)

/-- The state after a `reset` and the whole `notify` of a generation. -/
def announced (s : State) (n : Word) : State :=
  ((s.reset .notCalled n).store (s.gen + 1) .wake).wakeAll .asleep .decrement (s.gen + 1) .returned

theorem run_announced {s : State} {n : Word} (hdone : ∀ i < s.quota, s.waits i = .returned)
    (hnew : s.notifies (s.gen + 1) = .notCalled) :
    system.run s [.reset n, .notify (s.gen + 1), .wake (s.gen + 1)] = some (announced s n) := by
  simp only [System.run, system, step, if_pos hdone, Option.bind_some]
  simp [Generations.reset, Generations.store, hnew, announced]

/-- The calls of `wait` of the new generation. -/
def countdown (s : State) (n : Word) : System State Label where
  initial := announced s n
  step := step

/-- No call finds the event incomplete, or the count at 0. -/
structure CountsDown (n : Word) (s : State) : Prop extends Counting points n s where
  waits : ∀ i, s.waits i = .notCalled ∨ s.waits i = .decrement ∨ s.waits i = .returned

theorem waits_goto {s : State} {e : EventBase}
    (h : ∀ i, s.waits i = .notCalled ∨ s.waits i = .decrement ∨ s.waits i = .returned) (i : ℕ)
    {pc : Wait} (hpc : pc = .decrement ∨ pc = .returned) (j : ℕ) :
    (Generations.goto { s with event := e } i pc).waits j = .notCalled ∨
      (Generations.goto { s with event := e } i pc).waits j = .decrement ∨
      (Generations.goto { s with event := e } i pc).waits j = .returned :=
  Generations.forall_goto (A := fun w : Wait => w = .notCalled ∨ w = .decrement ∨ w = .returned) h i
    (.inr hpc) j

theorem announced_countsDown (s : State) (n : Word) : CountsDown n (announced s n) where
  toCounting := .announced s n (by simp [points]) (by simp [points])
  waits := by
    intro i
    simp [announced, Generations.wakeAll, Generations.store, Generations.reset]

theorem wait_countsDown {s s' : State} {n : Word} {i : ℕ} (h : CountsDown n s)
    (hs : step s (.wait i) = some s') : CountsDown n s' ∧ s' = s.goto i .decrement := by
  simp only [step, Option.ite_none_right_eq_some, Option.some.injEq] at hs
  obtain ⟨⟨hlt, hn⟩, rfl⟩ := hs
  have hc : s.event.eventState ≠ activeIncomplete := by
    rw [h.complete]
    exact complete_ne_incomplete
  rw [if_neg hc]
  exact ⟨⟨h.toCounting.goto hlt (by simp [hn, points]) (by simp [points]),
    waits_goto h.waits i (.inl rfl)⟩, rfl⟩

theorem tick_countsDown {s s' : State} {n : Word} {i : ℕ} (h : CountsDown n s)
    (hs : tick s i = some s') : CountsDown n s' ∧ s'.waits = Function.update s.waits i .returned := by
  rcases h.waits i with hi | hi | hi
  · simp [tick, hi] at hs
  · have hlt : i < s.quota := h.toCounting.lt_quota (by simp [hi, points])
    have hret : s.waits i ≠ points.returned := by simp [hi, points]
    have hne := h.toCounting.takeNotice_ne hlt hret
    simp only [tick, hi, if_neg hne, Option.some.injEq] at hs
    subst hs
    exact ⟨⟨h.toCounting.takeNotice hlt hret, waits_goto h.waits i (.inr rfl)⟩, rfl⟩
  · simp [tick, hi] at hs

theorem countsDown_reachable {s₀ s : State} {n : Word}
    (hr : (countdown s₀ n).Reachable OnlyWaits s) : CountsDown n s := by
  refine hr.invariant (I := CountsDown n) (announced_countsDown s₀ n) ?_
  intro s l s' h hd hs
  cases l with
  | wait i => exact (wait_countsDown h hs).1
  | tick i => exact (tick_countsDown h hs).1
  | leave i =>
    have hi := h.waits i
    simp only [countdown, step, Option.ite_none_right_eq_some] at hs
    simp [hs.1.1] at hi
  | reset nwait => exact absurd hd id
  | notify g => exact absurd hd id
  | wake g => exact absurd hd id

/-- The calls may run one after the other. -/
theorem returns_in_turn (s₀ : State) (n : Word) {k : ℕ} (hk : k ≤ n.toNat) :
    ∃ s, (countdown s₀ n).Reachable OnlyWaits s ∧
      s.waits = fun i => if i < k then .returned else .notCalled := by
  induction k with
  | zero =>
    refine ⟨_, .initial, ?_⟩
    funext i
    simp [countdown, announced, Generations.wakeAll, Generations.store, Generations.reset]
  | succ k ih =>
    obtain ⟨s, hr, hw⟩ := ih (by omega)
    have h := countsDown_reachable hr
    have hlt : k < s.quota := by
      rw [h.quota]
      omega
    have hn : s.waits k = .notCalled := by simp [hw]
    obtain ⟨s₁, hs₁⟩ : ∃ s₁, step s (.wait k) = some s₁ := by simp [step, hlt, hn]
    obtain ⟨h₁, rfl⟩ := wait_countsDown h hs₁
    have hpc : (s.goto k .decrement).waits k = .decrement := by simp [Generations.goto]
    obtain ⟨s₂, hs₂⟩ : ∃ s₂, tick (s.goto k .decrement) k = some s₂ := by simp [tick, hpc]
    obtain ⟨-, hw₂⟩ := tick_countsDown h₁ hs₂
    refine ⟨s₂, (hr.step (a := Label.wait k) trivial hs₁).step (a := Label.tick k) trivial hs₂, ?_⟩
    rw [hw₂, Generations.goto, Function.update_idem, hw]
    exact update_first Wait.notCalled Wait.returned k

end Futex

namespace Pthread

/-- The calls of `wait` alone move on. -/
def OnlyWaits (_ : State) : Label → Prop
  | .wait _ => True
  | .tick _ => True
  | .unlock _ _ => True
  | .spurious _ => True
  | _ => False

instance (s : State) : ∀ l, Decidable (OnlyWaits s l)
  | .wait _ | .tick _ | .unlock _ _ | .spurious _ => inferInstanceAs (Decidable True)
  | .reset _ | .notify _ | .notifyTick _ _ => inferInstanceAs (Decidable False)

/-- The state after a `reset` and the whole `notify` of a generation. -/
def announced (s : State) (n : Word) : State where
  base := ((s.base.reset .notCalled n).store (s.base.gen + 1) .lock).wakeAll .asleep .relock
    (s.base.gen + 1) .returned
  lck := s.lck

theorem run_announced {s : State} {n : Word} (hdone : ∀ i < s.base.quota, s.base.waits i = .returned)
    (hnew : s.base.notifies (s.base.gen + 1) = .notCalled) (hfree : s.lck = none) :
    system.run s [.reset n, .notify (s.base.gen + 1), .notifyTick (s.base.gen + 1) false,
      .notifyTick (s.base.gen + 1) false, .notifyTick (s.base.gen + 1) false] =
      some (announced s n) := by
  simp only [System.run, system, step, if_pos hdone, Option.bind_some]
  simp [Generations.reset, Generations.store, Generations.wakeAll, notifyTick, hnew, hfree, release,
    announced]

/-- The calls of `wait` of the new generation. -/
def countdown (s : State) (n : Word) : System State Label where
  initial := announced s n
  step := step

/-- Where a call of `wait` may be that finds the event complete. -/
def Wait.Awake (w : Wait) : Prop :=
  w = .notCalled ∨ w = .check ∨ w = .unlock ∨ w = .decrement ∨ w = .returned

/-- No call finds the event incomplete, or the count at 0. -/
structure CountsDown (n : Word) (s : State) : Prop extends Counting points n s.base where
  waits : ∀ i, (s.base.waits i).Awake

theorem announced_countsDown (s : State) (n : Word) : CountsDown n (announced s n) where
  toCounting := .announced s.base n (by simp [points]) (by simp [points])
  waits := by
    intro i
    simp [announced, Generations.wakeAll, Generations.store, Generations.reset, Wait.Awake]

/-- A call moves on to a point before its return. -/
theorem CountsDown.goto {s : State} {n : Word} (h : CountsDown n s) {i : ℕ} {pc : Wait}
    {lck : Option Party} (hlt : i < s.base.quota) (hi : s.base.waits i ≠ .returned)
    (hpc : pc.Awake) (hnot : pc ≠ .returned) : CountsDown n ⟨s.base.goto i pc, lck⟩ where
  toCounting := h.toCounting.goto hlt hi hnot
  waits := Generations.forall_goto h.waits i hpc

theorem wait_countsDown {s s' : State} {n : Word} {i : ℕ} (h : CountsDown n s)
    (hs : step s (.wait i) = some s') :
    CountsDown n s' ∧ s'.base.waits = Function.update s.base.waits i .check := by
  simp only [step, Option.ite_none_right_eq_some, Option.some.injEq] at hs
  obtain ⟨⟨hlt, hn⟩, rfl⟩ := hs
  have hc : s.base.event.eventState ≠ activeIncomplete := by
    rw [h.complete]
    exact complete_ne_incomplete
  rw [if_neg hc]
  exact ⟨h.goto hlt (by simp [hn]) (by simp [Wait.Awake]) (by simp), rfl⟩

theorem unlock_countsDown {s s' : State} {n : Word} {i : ℕ} {frees : Bool} (h : CountsDown n s)
    (hs : step s (.unlock i frees) = some s') :
    CountsDown n s' ∧ s'.base.waits = Function.update s.base.waits i .decrement := by
  simp only [step, Option.ite_none_right_eq_some, Option.some.injEq] at hs
  obtain ⟨hi, rfl⟩ := hs
  have hlt : i < s.base.quota := h.toCounting.lt_quota (by simp [hi, points])
  exact ⟨h.goto hlt (by simp [hi]) (by simp [Wait.Awake]) (by simp), rfl⟩

theorem tick_countsDown {s s' : State} {n : Word} {i : ℕ} (h : CountsDown n s)
    (hs : tick s i = some s') : CountsDown n s' ∧ s'.base.waits =
      Function.update s.base.waits i (if s.base.waits i = .check then .unlock else .returned) := by
  have hc : s.base.event.eventState ≠ activeIncomplete := by
    rw [h.complete]
    exact complete_ne_incomplete
  rcases h.waits i with hi | hi | hi | hi | hi
  · simp [tick, hi] at hs
  · have hlt : i < s.base.quota := h.toCounting.lt_quota (by simp [hi, points])
    simp only [tick, hi, if_neg hc, Option.some.injEq] at hs
    subst hs
    exact ⟨h.goto hlt (by simp [hi]) (by simp [Wait.Awake]) (by simp), by rw [if_pos hi]; rfl⟩
  · simp [tick, hi] at hs
  · have hlt : i < s.base.quota := h.toCounting.lt_quota (by simp [hi, points])
    have hret : s.base.waits i ≠ points.returned := by simp [hi, points]
    have hne := h.toCounting.takeNotice_ne hlt hret
    simp only [tick, hi, if_neg hne, Option.some.injEq] at hs
    subst hs
    refine ⟨⟨h.toCounting.takeNotice hlt hret,
      Generations.forall_goto h.waits i (by simp [Wait.Awake])⟩, ?_⟩
    rw [if_neg (by simp [hi])]
    rfl
  · simp [tick, hi] at hs

theorem countsDown_reachable {s₀ s : State} {n : Word}
    (hr : (countdown s₀ n).Reachable OnlyWaits s) : CountsDown n s := by
  refine hr.invariant (I := CountsDown n) (announced_countsDown s₀ n) ?_
  intro s l s' h hd hs
  cases l with
  | wait i => exact (wait_countsDown h hs).1
  | tick i => exact (tick_countsDown h hs).1
  | unlock i frees => exact (unlock_countsDown h hs).1
  | spurious i =>
    have hi := h.waits i
    simp only [countdown, step, Option.ite_none_right_eq_some] at hs
    simp [hs.1, Wait.Awake] at hi
  | reset nwait => exact absurd hd id
  | notify g => exact absurd hd id
  | notifyTick g frees => exact absurd hd id

/-- The calls may run one after the other. -/
theorem returns_in_turn (s₀ : State) (n : Word) {k : ℕ} (hk : k ≤ n.toNat) :
    ∃ s, (countdown s₀ n).Reachable OnlyWaits s ∧
      s.base.waits = fun i => if i < k then .returned else .notCalled := by
  induction k with
  | zero =>
    refine ⟨_, .initial, ?_⟩
    funext i
    simp [countdown, announced, Generations.wakeAll, Generations.store, Generations.reset]
  | succ k ih =>
    obtain ⟨s, hr, hw⟩ := ih (by omega)
    have h := countsDown_reachable hr
    have hlt : k < s.base.quota := by
      rw [h.quota]
      omega
    have hn : s.base.waits k = .notCalled := by simp [hw]
    obtain ⟨s₁, hs₁⟩ : ∃ s₁, step s (.wait k) = some s₁ := by simp [step, hlt, hn]
    obtain ⟨h₁, hw₁⟩ := wait_countsDown h hs₁
    obtain ⟨s₂, hs₂⟩ : ∃ s₂, tick s₁ k = some s₂ := by simp [tick, hw₁]
    obtain ⟨h₂, hw₂⟩ := tick_countsDown h₁ hs₂
    rw [hw₁] at hw₂
    obtain ⟨s₃, hs₃⟩ : ∃ s₃, step s₂ (.unlock k false) = some s₃ := by simp [step, hw₂]
    obtain ⟨h₃, hw₃⟩ := unlock_countsDown h₂ hs₃
    obtain ⟨s₄, hs₄⟩ : ∃ s₄, tick s₃ k = some s₄ := by simp [tick, hw₃]
    obtain ⟨-, hw₄⟩ := tick_countsDown h₃ hs₄
    refine ⟨s₄, (((hr.step (a := Label.wait k) trivial hs₁).step (a := Label.tick k) trivial hs₂).step
      (a := Label.unlock k false) trivial hs₃).step (a := Label.tick k) trivial hs₄, ?_⟩
    have hpc : s₃.base.waits k ≠ .check := by simp [hw₃]
    rw [hw₄, if_neg hpc, hw₃, hw₂, hw]
    simp only [Function.update_idem]
    exact update_first Wait.notCalled Wait.returned k

end Pthread

/-- In both builds the event stays complete through all calls of `wait`, and in no run is it
inactive after the last one, while as many calls of `test` make it so. -/
theorem waits_leave_complete {n : Word} (hn : n ≠ 0) (s₀ : Futex.State) (x₀ : Pthread.State) :
    ((∀ s, (Futex.countdown s₀ n).Reachable Futex.OnlyWaits s → StaysComplete Futex.points n s) ∧
      ∃ s, (Futex.countdown s₀ n).Reachable Futex.OnlyWaits s ∧
        ¬InactiveWithLast Futex.points n s) ∧
    ((∀ x, (Pthread.countdown x₀ n).Reachable Pthread.OnlyWaits x →
        StaysComplete Pthread.points n x.base) ∧
      ∃ x, (Pthread.countdown x₀ n).Reachable Pthread.OnlyWaits x ∧
        ¬InactiveWithLast Pthread.points n x.base) ∧
    (EventBase.reset n).complete.testTimes n.toNat = (⟨inactive, 0⟩, true) := by
  refine ⟨⟨fun s hr => (Futex.countsDown_reachable hr).toCounting.staysComplete, ?_⟩,
    ⟨fun x hr => (Pthread.countsDown_reachable hr).toCounting.staysComplete, ?_⟩, ?_⟩
  · obtain ⟨s, hr, hw⟩ := Futex.returns_in_turn s₀ n (Nat.le_refl _)
    refine ⟨s, hr, (Futex.countsDown_reachable hr).toCounting.staysComplete.not_inactiveWithLast ?_⟩
    intro i hi
    rw [hw]
    exact if_pos hi
  · obtain ⟨x, hr, hw⟩ := Pthread.returns_in_turn x₀ n (Nat.le_refl _)
    refine ⟨x, hr, (Pthread.countsDown_reachable hr).toCounting.staysComplete.not_inactiveWithLast ?_⟩
    intro i hi
    rw [hw]
    exact if_pos hi
  · have hpos : n.toNat ≠ 0 := fun he => hn (BitVec.eq_of_toNat_eq he)
    obtain ⟨k, hk⟩ := Nat.exists_eq_succ_of_ne_zero hpos
    rw [hk]
    exact EventBase.testTimes_complete hk

/-- Three waiters of an event that has not been used before. -/
theorem waits_leave_complete_three :
    ((∀ s, (Futex.countdown Futex.system.initial 3).Reachable Futex.OnlyWaits s →
        StaysComplete Futex.points 3 s) ∧
      ∃ s, (Futex.countdown Futex.system.initial 3).Reachable Futex.OnlyWaits s ∧
        ¬InactiveWithLast Futex.points 3 s) ∧
    ((∀ x, (Pthread.countdown Pthread.system.initial 3).Reachable Pthread.OnlyWaits x →
        StaysComplete Pthread.points 3 x.base) ∧
      ∃ x, (Pthread.countdown Pthread.system.initial 3).Reachable Pthread.OnlyWaits x ∧
        ¬InactiveWithLast Pthread.points 3 x.base) ∧
    (EventBase.reset 3).complete.testTimes (3 : Word).toNat = (⟨inactive, 0⟩, true) :=
  waits_leave_complete (by decide) Futex.system.initial Pthread.system.initial

/-- With one waiter, the event is complete when the call has returned. -/
theorem complete_after_last_wait :
    ¬(∀ s, (Futex.countdown Futex.system.initial 1).Reachable Futex.OnlyWaits s →
        InactiveWithLast Futex.points 1 s) ∧
    ¬(∀ x, (Pthread.countdown Pthread.system.initial 1).Reachable Pthread.OnlyWaits x →
        InactiveWithLast Pthread.points 1 x.base) := by
  constructor
  · intro h
    have hr : (Futex.countdown Futex.system.initial 1).Reachable Futex.OnlyWaits
        ((Futex.countdown Futex.system.initial 1).final [.wait 0, .tick 0]) :=
      System.reachable_final (by decide)
    exact absurd (h _ hr (by decide)) (by decide)
  · intro h
    have hr : (Pthread.countdown Pthread.system.initial 1).Reachable Pthread.OnlyWaits
        ((Pthread.countdown Pthread.system.initial 1).final
          [.wait 0, .tick 0, .unlock 0 false, .tick 0]) :=
      System.reachable_final (by decide)
    exact absurd (h _ hr (by decide)) (by decide)

end PFunc.WaitableEvent
