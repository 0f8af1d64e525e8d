import PFunc.LabelledRuns
import PFunc.Event

/-!
# The waitable event over its generations

A generation is one `reset (n)`, one `notify` and `n` calls of `wait`; the next
`reset` is issued once these calls have returned. A `notify` may be delayed past
that point, since its store alone lets the waiters go. The two builds share
the words of the event and the accounting of the generations; they differ in
how a waiter sleeps. Generation 0 stands for the unused event.
-/

namespace PFunc.WaitableEvent

open LabelledRuns Atomics Event

/-- An event, the calls of `wait` of its current generation, numbered below
`quota`, and the call of `notify` of every generation. -/
structure Generations (W N : Type) where
  event : EventBase
  gen : ℕ
  quota : ℕ
  waits : ℕ → W
  notifies : ℕ → N

/-- What a build calls its program points. -/
structure Points (W N : Type) where
  notCalled : W
  returned : W
  /-- the call has left its check and its sleep -/
  past : W → Prop
  /-- the call has stored `PFUNC_ACTIVE_COMPLETE` -/
  stored : N → Prop
  past_returned : past returned
  not_past_notCalled : ¬past notCalled

variable {W N : Type} {P : Points W N} {s s' : Generations W N}

namespace Generations

/-- One call of `wait` moves on. -/
def goto (s : Generations W N) (i : ℕ) (pc : W) : Generations W N :=
  { s with waits := Function.update s.waits i pc }

/-- The store of one call of `notify`. -/
def store (s : Generations W N) (g : ℕ) (pc : N) : Generations W N :=
  { s with event := s.event.complete, notifies := Function.update s.notifies g pc }

/-- One call of `notify` wakes all who sleep. -/
def wakeAll [DecidableEq W] (s : Generations W N) (asleep woken : W) (g : ℕ) (pc : N) :
    Generations W N :=
  { s with
    waits := fun i => if s.waits i = asleep then woken else s.waits i
    notifies := Function.update s.notifies g pc }

def reset (s : Generations W N) (notCalled : W) (nwait : Word) : Generations W N :=
  { s with
    event := .reset nwait, gen := s.gen + 1, quota := nwait.toNat, waits := fun _ => notCalled }

end Generations

namespace Points

/-- No call of `wait` returns before the `notify` of its generation has stored. -/
def NoEarlyReturn (P : Points W N) (s : Generations W N) : Prop :=
  ∀ i, s.waits i = P.returned → P.stored (s.notifies s.gen)

structure Invariant (P : Points W N) (s : Generations W N) : Prop where
  zero : P.stored (s.notifies 0)
  older : ∀ g < s.gen, P.stored (s.notifies g)
  complete : s.event.eventState ≠ activeIncomplete → P.stored (s.notifies s.gen)
  past : ∀ i, P.past (s.waits i) → P.stored (s.notifies s.gen)
  idle : ∀ i, s.quota ≤ i → s.waits i = P.notCalled
  busy : 0 < s.gen → 0 < s.quota

namespace Invariant

theorem noEarlyReturn (h : P.Invariant s) : P.NoEarlyReturn s :=
  fun i hi => h.past i (hi ▸ P.past_returned)

theorem lt_quota (h : P.Invariant s) {i : ℕ} (hi : s.waits i ≠ P.notCalled) : i < s.quota := by
  by_contra hge
  exact hi (h.idle i (by omega))

/-- A waiter may move past its sleep, or change the state, once the state is
complete or it has been past its sleep before. -/
theorem goto (h : P.Invariant s) {e : EventBase} {i : ℕ} {pc : W} (hi : i < s.quota)
    (hevent : e.eventState ≠ activeIncomplete →
      s.event.eventState ≠ activeIncomplete ∨ P.past (s.waits i))
    (hpast : P.past pc → s.event.eventState ≠ activeIncomplete ∨ P.past (s.waits i)) :
    P.Invariant (Generations.goto { s with event := e } i pc) where
  zero := h.zero
  older := h.older
  complete := by
    intro hc
    rcases hevent hc with hc | hc
    · exact h.complete hc
    · exact h.past i hc
  past := by
    intro j hj
    by_cases he : j = i
    · subst he
      rcases hpast (by simpa [Generations.goto] using hj) with hc | hc
      · exact h.complete hc
      · exact h.past j hc
    · exact h.past j (by simpa [Generations.goto, he] using hj)
  idle := by
    intro j hj
    change s.quota ≤ j at hj
    have hne : j ≠ i := by omega
    simpa [Generations.goto, hne] using h.idle j hj
  busy := h.busy

/-- A call of `notify` may move on if it has stored before or stores now. -/
theorem notified (h : P.Invariant s) {e : EventBase} {ws : ℕ → W} {g : ℕ} {pc : N}
    (hpc : P.stored pc)
    (hevent : e.eventState ≠ activeIncomplete →
      s.event.eventState ≠ activeIncomplete ∨ g = s.gen)
    (hpast : ∀ i, P.past (ws i) → P.past (s.waits i) ∨ g = s.gen ∨
      s.event.eventState ≠ activeIncomplete)
    (hidle : ∀ i, s.quota ≤ i → ws i = P.notCalled) :
    P.Invariant { s with event := e, waits := ws, notifies := Function.update s.notifies g pc } := by
  have hkeep : ∀ g', P.stored (s.notifies g') →
      P.stored (Function.update s.notifies g pc g') := by
    intro g' hg'
    by_cases he : g' = g
    · simpa [he] using hpc
    · simpa [he] using hg'
  refine ⟨hkeep 0 h.zero, fun g' hg' => hkeep g' (h.older g' hg'), ?_, ?_, hidle, h.busy⟩
  · intro hc
    rcases hevent hc with hc | rfl
    · exact hkeep _ (h.complete hc)
    · simpa using hpc
  · intro i hi
    rcases hpast i hi with hp | rfl | hc
    · exact hkeep _ (h.past i hp)
    · simpa using hpc
    · exact hkeep _ (h.complete hc)

/-- All earlier generations have stored, so a store is that of the current one. -/
theorem store (h : P.Invariant s) {g : ℕ} {pc : N} (hg : g ≤ s.gen)
    (hnew : ¬P.stored (s.notifies g)) (hpc : P.stored pc) : P.Invariant (s.store g pc) := by
  have heq : g = s.gen := by
    rcases Nat.lt_or_eq_of_le hg with hlt | heq
    · exact absurd (h.older g hlt) hnew
    · exact heq
  exact h.notified hpc (fun _ => .inr heq) (fun _ hp => .inl hp) h.idle

theorem wakeAll [DecidableEq W] (h : P.Invariant s) {asleep woken : W} {g : ℕ} {pc : N}
    (hpc : P.stored pc) (hasleep : asleep ≠ P.notCalled)
    (hd : g = s.gen ∨ s.event.eventState ≠ activeIncomplete ∨
      ∀ i < s.quota, s.waits i ≠ asleep) : P.Invariant (s.wakeAll asleep woken g pc) := by
  refine h.notified hpc .inl ?_ ?_
  · intro i hp
    by_cases ha : s.waits i = asleep
    · rcases hd with hd | hd | hd
      · exact .inr (.inl hd)
      · exact .inr (.inr hd)
      · exact absurd ha (hd i (h.lt_quota (ha ▸ hasleep)))
    · simp only [ha, if_false] at hp
      exact .inl hp
  · intro i hi
    have hw := h.idle i hi
    rw [if_neg (by rw [hw]; exact Ne.symm hasleep)]
    exact hw

/-- A reset finds the last generation notified, since one of its waits has returned. -/
theorem reset (h : P.Invariant s) (hdone : ∀ i < s.quota, s.waits i = P.returned)
    {nwait : Word} (hn : nwait ≠ 0) : P.Invariant (s.reset P.notCalled nwait) where
  zero := h.zero
  older := by
    intro g hg
    rcases Nat.lt_or_eq_of_le (Nat.lt_succ_iff.mp hg) with hg | rfl
    · exact h.older g hg
    · rcases Nat.eq_zero_or_pos s.gen with h0 | hpos
      · have hz := h.zero
        rw [← h0] at hz
        exact hz
      · exact h.noEarlyReturn 0 (hdone 0 (h.busy hpos))
  complete := by
    intro hc
    exact absurd rfl hc
  past := by
    intro i hi
    exact absurd hi P.not_past_notCalled
  idle := by
    intro i _
    rfl
  busy := by
    intro _
    have hne : nwait.toNat ≠ 0 := fun he => hn (BitVec.eq_of_toNat_eq he)
    change 0 < nwait.toNat
    omega

end Invariant

end Points

namespace Futex

/-- The program points of `wait`. -/
inductive Wait where
  | notCalled
  /-- the state was incomplete; about to call `futex_wait` -/
  | futexWait
  | asleep
  /-- before the decrement of `num_waiters` -/
  | decrement
  | deactivate
  | returned
  deriving DecidableEq

/-- The program points of `notify`; `wake` lies between its exchange and its `futex_wake`. -/
inductive Notify where
  | notCalled
  | wake
  | returned
  deriving DecidableEq

def points : Points Wait Notify where
  notCalled := .notCalled
  returned := .returned
  past w := w = .decrement ∨ w = .deactivate ∨ w = .returned
  stored n := n ≠ .notCalled
  past_returned := by simp
  not_past_notCalled := by simp

abbrev State := Generations Wait Notify

inductive Label where
  | reset (nwait : Word)
  /-- the call of `wait` up to its load of the state -/
  | wait (i : ℕ)
  | tick (i : ℕ)
  /-- `futex_wait` returns because the word has changed -/
  | leave (i : ℕ)
  /-- the call of `notify` up to its exchange -/
  | notify (g : ℕ)
  /-- `futex_wake (&event_state, INT_MAX)` -/
  | wake (g : ℕ)
  deriving DecidableEq

def tick (s : State) (i : ℕ) : Option State :=
  match s.waits i with
  | .futexWait =>
    some (s.goto i (if s.event.eventState = activeIncomplete then .asleep else .decrement))
  | .decrement =>
    let r := s.event.takeNotice
    some (Generations.goto { s with event := r.1 } i (if r.2 = 0 then .deactivate else .returned))
  | .deactivate => some (Generations.goto { s with event := s.event.deactivate } i .returned)
  | _ => none

def step (s : State) : Label → Option State
  | .reset nwait =>
    if ∀ i < s.quota, s.waits i = .returned then some (s.reset .notCalled nwait) else none
  | .wait i =>
    if i < s.quota ∧ s.waits i = .notCalled then
      some (s.goto i (if s.event.eventState = activeIncomplete then .futexWait else .decrement))
    else none
  | .tick i => tick s i
  | .leave i =>
    if s.waits i = .asleep ∧ s.event.eventState ≠ activeIncomplete then
      some (s.goto i .decrement)
    else none
  | .notify g =>
    if g ≤ s.gen ∧ s.notifies g = .notCalled then some (s.store g .wake) else none
  | .wake g =>
    if s.notifies g = .wake then some (s.wakeAll .asleep .decrement g .returned) else none

def system : System State Label where
  initial := ⟨.new, 0, 0, fun _ => .notCalled, fun g => if g = 0 then .returned else .notCalled⟩
  step := step

/-- Every generation has a waiter, and a `futex_wake` left over from an earlier
generation meets no sleeper of a generation that is still incomplete. -/
def Timely (s : State) : Label → Prop
  | .reset nwait => nwait ≠ 0
  | .wake g => g = s.gen ∨ s.event.eventState ≠ activeIncomplete ∨
      ∀ i < s.quota, s.waits i ≠ .asleep
  | _ => True

instance (s : State) (l : Label) : Decidable (Timely s l) := by
  cases l <;> unfold Timely <;> infer_instance

theorem invariant_initial : points.Invariant system.initial := by
  refine ⟨?_, ?_, ?_, ?_, ?_, ?_⟩ <;> simp [system, points]

theorem past_of_check {s : State} {pc : Wait} (hpc : ¬points.past pc)
    (hp : points.past (if s.event.eventState = activeIncomplete then pc else .decrement)) :
    s.event.eventState ≠ activeIncomplete := by
  intro hc
  rw [if_pos hc] at hp
  exact hpc hp

theorem tick_invariant {s s' : State} {i : ℕ} (h : points.Invariant s) (hs : tick s i = some s') :
    points.Invariant s' := by
  have hi : s.waits i ≠ .notCalled := by
    intro hn
    simp [tick, hn] at hs
  cases hpc : s.waits i <;> simp only [tick, hpc, Option.some.injEq, reduceCtorEq] at hs <;>
    subst hs
  case futexWait =>
    refine h.goto (e := s.event) (h.lt_quota hi) .inl ?_
    intro hp
    exact .inl (past_of_check (by simp [points]) hp)
  case decrement =>
    refine h.goto (h.lt_quota hi) ?_ fun _ => .inr (.inl hpc)
    rw [EventBase.takeNotice_eventState]
    exact .inl
  case deactivate =>
    have hp : points.past (s.waits i) := .inr (.inl hpc)
    exact h.goto (h.lt_quota hi) (fun _ => .inr hp) fun _ => .inr hp

theorem step_invariant {s s' : State} {l : Label} (h : points.Invariant s) (hd : Timely s l)
    (hs : step s l = some s') : points.Invariant s' := by
  cases l with
  | reset nwait =>
    simp only [step, Option.ite_none_right_eq_some, Option.some.injEq] at hs
    obtain ⟨hdone, rfl⟩ := hs
    exact h.reset hdone hd
  | wait i =>
    simp only [step, Option.ite_none_right_eq_some, Option.some.injEq] at hs
    obtain ⟨⟨hi, -⟩, rfl⟩ := hs
    refine h.goto (e := s.event) hi .inl ?_
    intro hp
    exact .inl (past_of_check (by simp [points]) hp)
  | tick i => exact tick_invariant h hs
  | leave i =>
    simp only [step, Option.ite_none_right_eq_some, Option.some.injEq] at hs
    obtain ⟨⟨hi, hc⟩, rfl⟩ := hs
    exact h.goto (e := s.event) (h.lt_quota (by simp [hi, points])) .inl fun _ => .inl hc
  | notify g =>
    simp only [step, Option.ite_none_right_eq_some, Option.some.injEq] at hs
    obtain ⟨⟨hg, hn⟩, rfl⟩ := hs
    exact h.store hg (by simp [points, hn]) (by simp [points])
  | wake g =>
    simp only [step, Option.ite_none_right_eq_some, Option.some.injEq] at hs
    obtain ⟨-, rfl⟩ := hs
    exact h.wakeAll (by simp [points]) (by simp [points]) hd

theorem noEarlyReturn_reachable {s : State} (h : system.Reachable Timely s) :
    points.NoEarlyReturn s :=
  (h.invariant invariant_initial fun _ _ _ hi hd hs => step_invariant hi hd hs).noEarlyReturn

end Futex

namespace Pthread

/-- The program points of `wait`. A waiter that finds the event complete at its
first check reaches `check` without the lock. -/
inductive Wait where
  | notCalled
  | lock
  | check
  | condWait
  | asleep
  /-- woken, and before `pthread_cond_wait` has taken the lock again -/
  | relock
  | unlock
  | decrement
  | deactivate
  | returned
  deriving DecidableEq

/-- The program points of `notify`, after its exchange. -/
inductive Notify where
  | notCalled
  | lock
  | broadcast
  | unlock
  | returned
  deriving DecidableEq

inductive Party where
  | waiter (i : ℕ)
  | notifier (g : ℕ)
  deriving DecidableEq

def points : Points Wait Notify where
  notCalled := .notCalled
  returned := .returned
  past w := w = .relock ∨ w = .unlock ∨ w = .decrement ∨ w = .deactivate ∨ w = .returned
  stored n := n ≠ .notCalled
  past_returned := by simp
  not_past_notCalled := by simp

structure State where
  base : Generations Wait Notify
  lck : Option Party

inductive Label where
  | reset (nwait : Word)
  | wait (i : ℕ)
  | tick (i : ℕ)
  /-- `lck.unlock ()` in `wait`; `frees` decides what it does to a lock held by somebody else -/
  | unlock (i : ℕ) (frees : Bool)
  | spurious (i : ℕ)
  | notify (g : ℕ)
  | notifyTick (g : ℕ) (frees : Bool)
  deriving DecidableEq

/-- `pthread_mutex_unlock`. Unlocking a mutex one does not hold is undefined;
it may be freed under its owner or stay as it is. -/
def release (lck : Option Party) (p : Party) (frees : Bool) : Option Party :=
  if lck = some p ∨ frees then none else lck

def tick (s : State) (i : ℕ) : Option State :=
  match s.base.waits i with
  | .lock =>
    if s.lck = none then some ⟨s.base.goto i .check, some (.waiter i)⟩ else none
  | .check =>
    some { s with
      base := s.base.goto i (if s.base.event.eventState = activeIncomplete then .condWait
        else .unlock) }
  | .condWait => some ⟨s.base.goto i .asleep, release s.lck (.waiter i) false⟩
  | .relock =>
    if s.lck = none then some ⟨s.base.goto i .unlock, some (.waiter i)⟩ else none
  | .decrement =>
    let r := s.base.event.takeNotice
    some { s with
      base := Generations.goto { s.base with event := r.1 } i
        (if r.2 = 0 then .deactivate else .returned) }
  | .deactivate =>
    some { s with
      base := Generations.goto { s.base with event := s.base.event.deactivate } i .returned }
  | _ => none

def notifyTick (s : State) (g : ℕ) (frees : Bool) : Option State :=
  match s.base.notifies g with
  | .lock =>
    if s.lck = none then
      some ⟨{ s.base with notifies := Function.update s.base.notifies g .broadcast },
        some (.notifier g)⟩
    else none
  | .broadcast => some { s with base := s.base.wakeAll .asleep .relock g .unlock }
  | .unlock =>
    some ⟨{ s.base with notifies := Function.update s.base.notifies g .returned },
      release s.lck (.notifier g) frees⟩
  | _ => none

def step (s : State) : Label → Option State
  | .reset nwait =>
    if ∀ i < s.base.quota, s.base.waits i = .returned then
      some { s with base := s.base.reset .notCalled nwait } else none
  | .wait i =>
    if i < s.base.quota ∧ s.base.waits i = .notCalled then
      some { s with
        base := s.base.goto i (if s.base.event.eventState = activeIncomplete then .lock
          else .check) }
    else none
  | .tick i => tick s i
  | .unlock i frees =>
    if s.base.waits i = .unlock then
      some ⟨s.base.goto i .decrement, release s.lck (.waiter i) frees⟩ else none
  | .spurious i =>
    if s.base.waits i = .asleep then some { s with base := s.base.goto i .relock } else none
  | .notify g =>
    if g ≤ s.base.gen ∧ s.base.notifies g = .notCalled then
      some { s with base := s.base.store g .lock } else none
  | .notifyTick g frees => notifyTick s g frees

def system : System State Label where
  initial := ⟨⟨.new, 0, 0, fun _ => .notCalled,
    fun g => if g = 0 then .returned else .notCalled⟩, none⟩
  step := step

/-- As for the futex build; moreover no wait on the condition variable ends
spuriously while the event is incomplete. -/
def Timely (s : State) : Label → Prop
  | .reset nwait => nwait ≠ 0
  | .spurious _ => s.base.event.eventState ≠ activeIncomplete
  | .notifyTick g _ => s.base.notifies g = .broadcast →
      g = s.base.gen ∨ s.base.event.eventState ≠ activeIncomplete ∨
        ∀ i < s.base.quota, s.base.waits i ≠ .asleep
  | _ => True

instance (s : State) (l : Label) : Decidable (Timely s l) := by
  cases l <;> unfold Timely <;> infer_instance

theorem invariant_initial : points.Invariant system.initial.base := by
  refine ⟨?_, ?_, ?_, ?_, ?_, ?_⟩ <;> simp [system, points]

theorem tick_invariant {s s' : State} {i : ℕ} (h : points.Invariant s.base)
    (hs : tick s i = some s') : points.Invariant s'.base := by
  have hi : s.base.waits i ≠ .notCalled := by
    intro hn
    simp [tick, hn] at hs
  have hlt := h.lt_quota hi
  cases hpc : s.base.waits i <;>
    simp only [tick, hpc, Option.ite_none_right_eq_some, Option.some.injEq, reduceCtorEq] at hs
  case lock =>
    obtain ⟨-, rfl⟩ := hs
    exact h.goto (e := s.base.event) hlt .inl (by simp [points])
  case check =>
    subst hs
    refine h.goto (e := s.base.event) hlt .inl ?_
    intro hp
    left
    intro hc
    simp [hc, points] at hp
  case condWait =>
    subst hs
    exact h.goto (e := s.base.event) hlt .inl (by simp [points])
  case relock =>
    obtain ⟨-, rfl⟩ := hs
    exact h.goto (e := s.base.event) hlt .inl fun _ => .inr (.inl hpc)
  case decrement =>
    subst hs
    refine h.goto hlt ?_ fun _ => .inr (.inr (.inr (.inl hpc)))
    rw [EventBase.takeNotice_eventState]
    exact .inl
  case deactivate =>
    subst hs
    have hp : points.past (s.base.waits i) := .inr (.inr (.inr (.inl hpc)))
    exact h.goto hlt (fun _ => .inr hp) fun _ => .inr hp

theorem notifyTick_invariant {s s' : State} {g : ℕ} {frees : Bool}
    (h : points.Invariant s.base) (hd : Timely s (.notifyTick g frees))
    (hs : notifyTick s g frees = some s') : points.Invariant s'.base := by
  cases hpc : s.base.notifies g <;>
    simp only [notifyTick, hpc, Option.ite_none_right_eq_some, Option.some.injEq,
      reduceCtorEq] at hs
  case lock =>
    obtain ⟨-, rfl⟩ := hs
    exact h.notified (e := s.base.event) (by simp [points]) .inl (fun _ hp => .inl hp) h.idle
  case broadcast =>
    subst hs
    exact h.wakeAll (by simp [points]) (by simp [points]) (hd hpc)
  case unlock =>
    subst hs
    exact h.notified (e := s.base.event) (by simp [points]) .inl (fun _ hp => .inl hp) h.idle

theorem step_invariant {s s' : State} {l : Label} (h : points.Invariant s.base)
    (hd : Timely s l) (hs : step s l = some s') : points.Invariant s'.base := by
  cases l with
  | reset nwait =>
    simp only [step, Option.ite_none_right_eq_some, Option.some.injEq] at hs
    obtain ⟨hdone, rfl⟩ := hs
    exact h.reset hdone hd
  | wait i =>
    simp only [step, Option.ite_none_right_eq_some, Option.some.injEq] at hs
    obtain ⟨⟨hi, -⟩, rfl⟩ := hs
    refine h.goto (e := s.base.event) hi .inl ?_
    intro hp
    split at hp <;> simp [points] at hp
  | tick i => exact tick_invariant h hs
  | unlock i frees =>
    simp only [step, Option.ite_none_right_eq_some, Option.some.injEq] at hs
    obtain ⟨hi, rfl⟩ := hs
    exact h.goto (e := s.base.event) (h.lt_quota (by simp [hi, points])) .inl
      fun _ => .inr (.inr (.inl hi))
  | spurious i =>
    simp only [step, Option.ite_none_right_eq_some, Option.some.injEq] at hs
    obtain ⟨hi, rfl⟩ := hs
    exact h.goto (e := s.base.event) (h.lt_quota (by simp [hi, points])) .inl fun _ => .inl hd
  | notify g =>
    simp only [step, Option.ite_none_right_eq_some, Option.some.injEq] at hs
    obtain ⟨⟨hg, hn⟩, rfl⟩ := hs
    exact h.store hg (by simp [points, hn]) (by simp [points])
  | notifyTick g frees => exact notifyTick_invariant h hd hs

theorem noEarlyReturn_reachable {s : State} (h : system.Reachable Timely s) :
    points.NoEarlyReturn s.base :=
  (h.invariant (I := fun s => points.Invariant s.base) invariant_initial
    fun _ _ _ hi hd hs => step_invariant hi hd hs).noEarlyReturn

end Pthread

/-- In both builds every wait returns after the store of its own generation, as
long as no wake-up left over from an earlier one hits a sleeper. -/
theorem no_early_return (s : Futex.State) (x : Pthread.State) :
    (Futex.system.Reachable Futex.Timely s → Futex.points.NoEarlyReturn s) ∧
    (Pthread.system.Reachable Pthread.Timely x → Pthread.points.NoEarlyReturn x.base) :=
  ⟨Futex.noEarlyReturn_reachable, Pthread.noEarlyReturn_reachable⟩

/-- One waiter that sleeps and is woken by the `notify` of its generation. -/
def Futex.timelyRun : List Futex.Label :=
  [.reset 1, .wait 0, .tick 0, .notify 1, .wake 1, .tick 0]

def Pthread.timelyRun : List Pthread.Label :=
  [.reset 1, .wait 0, .tick 0, .tick 0, .tick 0, .notify 1, .notifyTick 1 false,
    .notifyTick 1 false, .notifyTick 1 false, .tick 0, .unlock 0 false, .tick 0]

theorem no_early_return_timelyRun :
    (Futex.system.final Futex.timelyRun).waits 0 = .returned ∧
    Futex.points.NoEarlyReturn (Futex.system.final Futex.timelyRun) ∧
    (Pthread.system.final Pthread.timelyRun).base.waits 0 = .returned ∧
    Pthread.points.NoEarlyReturn (Pthread.system.final Pthread.timelyRun).base :=
  ⟨by decide, (no_early_return _ Pthread.system.initial).1 (System.reachable_final (by decide)),
    by decide, (no_early_return Futex.system.initial _).2 (System.reachable_final (by decide))⟩

/-- The `notify` of generation 1 stores, its waiter goes on without sleeping, and
its wake-up comes after the waiter of generation 2 has gone to sleep. -/
def Futex.staleRun : List Futex.Label :=
  [.reset 1, .notify 1, .wait 0, .tick 0, .reset 1, .wait 0, .tick 0, .wake 1, .tick 0]

def Pthread.staleRun : List Pthread.Label :=
  [.reset 1, .wait 0, .notify 1, .tick 0, .tick 0, .unlock 0 false, .tick 0,
    .reset 1, .wait 0, .tick 0, .tick 0, .tick 0,
    .notifyTick 1 false, .notifyTick 1 false, .notifyTick 1 false,
    .tick 0, .unlock 0 false, .tick 0]

theorem early_return_staleRun :
    ((Futex.system.run Futex.system.initial Futex.staleRun).isSome ∧
      ¬Futex.points.NoEarlyReturn (Futex.system.final Futex.staleRun)) ∧
    ((Pthread.system.run Pthread.system.initial Pthread.staleRun).isSome ∧
      ¬Pthread.points.NoEarlyReturn (Pthread.system.final Pthread.staleRun).base) := by
  refine ⟨⟨by decide, ?_⟩, by decide, ?_⟩
  · intro h
    have hn : (Futex.system.final Futex.staleRun).notifies 2 = .notCalled := by decide
    exact h 0 (by decide) hn
  · intro h
    have hn : (Pthread.system.final Pthread.staleRun).base.notifies 2 = .notCalled := by decide
    exact h 0 (by decide) hn

end PFunc.WaitableEvent
