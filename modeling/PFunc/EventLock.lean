import PFunc.WaitableEvent

/-!
# The lock of the waitable event

In the build on condition variables a call of `wait` takes the lock only if its first load
finds the event incomplete, and releases it in any case. A run in which every first load finds
the event incomplete keeps the discipline of the lock: the calls that are between their
acquisition and their release are those that hold it.
-/

namespace PFunc.WaitableEvent.Pthread

open LabelledRuns Atomics Event

/-- Whoever is about to release the lock, or to wait with it, holds it, and whoever has
returned does not. -/
structure Disciplined (s : State) : Prop where
  condWait : ∀ i, s.base.waits i = .condWait → s.lck = some (.waiter i)
  unlock : ∀ i, s.base.waits i = .unlock → s.lck = some (.waiter i)
  notifyUnlock : ∀ g, s.base.notifies g = .unlock → s.lck = some (.notifier g)
  returned : ∀ i, s.base.waits i = .returned → s.lck ≠ some (.waiter i)
  notified : ∀ g, s.base.notifies g = .returned → s.lck ≠ some (.notifier g)

/-- The first load of every call of `wait` finds the event incomplete. -/
def FindsIncomplete (s : State) : Label → Prop
  | .wait _ => s.base.event.eventState = activeIncomplete
  | _ => True

instance (s : State) : ∀ l, Decidable (FindsIncomplete s l)
  | .wait _ => inferInstanceAs (Decidable (s.base.event.eventState = activeIncomplete))
  | .reset _ | .tick _ | .unlock _ _ | .spurious _ | .notify _ | .notifyTick _ _ =>
    inferInstanceAs (Decidable True)

/-- Between `lock` and `unlock`, the sleep in `cnd.wait` apart. -/
def State.Inside (s : State) : Party → Prop
  | .waiter i => s.base.waits i = .check ∨ s.base.waits i = .condWait ∨ s.base.waits i = .unlock
  | .notifier g => s.base.notifies g = .broadcast ∨ s.base.notifies g = .unlock

structure HeldInside (s : State) : Prop where
  holder : ∀ p, s.lck = some p ↔ s.Inside p
  idle : ∀ i, s.base.quota ≤ i → s.base.waits i = .notCalled

theorem HeldInside.disciplined {s : State} (h : HeldInside s) : Disciplined s where
  condWait := by
    intro i hi
    exact (h.holder (.waiter i)).mpr (.inr (.inl hi))
  unlock := by
    intro i hi
    exact (h.holder (.waiter i)).mpr (.inr (.inr hi))
  notifyUnlock := by
    intro g hg
    exact (h.holder (.notifier g)).mpr (.inr hg)
  returned := by
    intro i hi hheld
    have hin := (h.holder (.waiter i)).mp hheld
    simp [State.Inside, hi] at hin
  notified := by
    intro g hg hheld
    have hin := (h.holder (.notifier g)).mp hheld
    simp [State.Inside, hg] at hin

/-! ### Moves of one party -/

section Moves

variable {s s' : State} {p : Party}

/-- Nobody comes in or goes out. -/
theorem holder_same (h : ∀ q, s.lck = some q ↔ s.Inside q) (hlck : s'.lck = s.lck)
    (hin : ∀ q, s'.Inside q ↔ s.Inside q) : ∀ q, s'.lck = some q ↔ s'.Inside q := by
  intro q
  rw [hlck, hin]
  exact h q

/-- The party takes the free lock. -/
theorem holder_acquire (h : ∀ q, s.lck = some q ↔ s.Inside q) (hfree : s.lck = none)
    (hlck : s'.lck = some p) (hp : s'.Inside p) (hin : ∀ q, q ≠ p → (s'.Inside q ↔ s.Inside q)) :
    ∀ q, s'.lck = some q ↔ s'.Inside q := by
  intro q
  by_cases hq : q = p
  · subst hq
    exact iff_of_true hlck hp
  · have hout : ¬s.Inside q := by
      rw [← h q, hfree]
      simp
    rw [hlck, hin q hq]
    refine iff_of_false ?_ hout
    intro he
    exact hq (Option.some.inj he).symm

/-- The party, which is inside, releases the lock. -/
theorem holder_release (h : ∀ q, s.lck = some q ↔ s.Inside q) (hold : s.Inside p) {frees : Bool}
    (hlck : s'.lck = release s.lck p frees) (hp : ¬s'.Inside p)
    (hin : ∀ q, q ≠ p → (s'.Inside q ↔ s.Inside q)) : ∀ q, s'.lck = some q ↔ s'.Inside q := by
  have hheld : s.lck = some p := (h p).mpr hold
  have hnone : s'.lck = none := by
    rw [hlck, release, if_pos (.inl hheld)]
  intro q
  rw [hnone]
  refine iff_of_false (by simp) ?_
  by_cases hq : q = p
  · subst hq
    exact hp
  · rw [hin q hq, ← h q, hheld]
    intro he
    exact hq (Option.some.inj he).symm

end Moves

/-- A party other than the waiter that moves is inside as before. -/
theorem inside_goto {s : State} {e : EventBase} {lck : Option Party} {i : ℕ} {pc : Wait} {q : Party}
    (hq : q ≠ .waiter i) :
    State.Inside ⟨Generations.goto { s.base with event := e } i pc, lck⟩ q ↔ s.Inside q := by
  cases q with
  | waiter j =>
    have hj : j ≠ i := by
      intro he
      exact hq (by rw [he])
    simp [State.Inside, Generations.goto, hj]
  | notifier g => rfl

theorem idle_goto {s : State} (h : HeldInside s) {i : ℕ} (hi : s.base.waits i ≠ .notCalled)
    (pc : Wait) : ∀ j, s.base.quota ≤ j → Function.update s.base.waits i pc j = .notCalled := by
  intro j hj
  have hne : j ≠ i := by
    intro he
    exact hi (h.idle i (he ▸ hj))
  rw [Function.update_of_ne hne]
  exact h.idle j hj

/-- A waiter moves and is inside iff it was before. -/
theorem HeldInside.goto {s : State} (h : HeldInside s) {e : EventBase} {i : ℕ} {pc : Wait}
    (hi : s.base.waits i ≠ .notCalled)
    (hpc : (pc = .check ∨ pc = .condWait ∨ pc = .unlock) ↔ s.Inside (.waiter i)) :
    HeldInside { s with base := Generations.goto { s.base with event := e } i pc } where
  holder := by
    refine holder_same h.holder rfl ?_
    intro q
    by_cases hq : q = .waiter i
    · subst hq
      simpa [State.Inside, Generations.goto] using hpc
    · exact inside_goto hq
  idle := idle_goto h hi pc

theorem HeldInside.acquire {s : State} (h : HeldInside s) {i : ℕ} {pc : Wait}
    (hi : s.base.waits i ≠ .notCalled) (hfree : s.lck = none)
    (hpc : pc = .check ∨ pc = .condWait ∨ pc = .unlock) :
    HeldInside ⟨s.base.goto i pc, some (.waiter i)⟩ where
  holder := by
    refine holder_acquire h.holder hfree rfl ?_ fun q hq => inside_goto (e := s.base.event) hq
    simpa [State.Inside, Generations.goto] using hpc
  idle := idle_goto h hi pc

theorem HeldInside.leave {s : State} (h : HeldInside s) {i : ℕ} {pc : Wait}
    (hi : s.Inside (.waiter i)) (hpc : ¬(pc = .check ∨ pc = .condWait ∨ pc = .unlock))
    (frees : Bool) : HeldInside ⟨s.base.goto i pc, release s.lck (.waiter i) frees⟩ where
  holder := by
    refine holder_release h.holder hi rfl ?_ fun q hq => inside_goto (e := s.base.event) hq
    simpa [State.Inside, Generations.goto] using hpc
  idle := by
    refine idle_goto h ?_ pc
    intro hn
    simp [State.Inside, hn] at hi

/-! ### Steps -/

theorem tick_heldInside {s s' : State} {i : ℕ} (h : HeldInside s) (hs : tick s i = some s') :
    HeldInside s' := by
  have hi : s.base.waits i ≠ .notCalled := by
    intro hn
    simp [tick, hn] at hs
  cases hpc : s.base.waits i <;>
    simp only [tick, hpc, Option.ite_none_right_eq_some, Option.some.injEq, reduceCtorEq] at hs
  case lock =>
    obtain ⟨hfree, rfl⟩ := hs
    exact h.acquire hi hfree (.inl rfl)
  case check =>
    subst hs
    refine h.goto (e := s.base.event) hi (iff_of_true ?_ (.inl hpc))
    split
    · exact .inr (.inl rfl)
    · exact .inr (.inr rfl)
  case condWait =>
    subst hs
    exact h.leave (.inr (.inl hpc)) (by simp) false
  case relock =>
    obtain ⟨hfree, rfl⟩ := hs
    exact h.acquire hi hfree (.inr (.inr rfl))
  case decrement =>
    subst hs
    refine h.goto hi (iff_of_false ?_ (by simp [State.Inside, hpc]))
    split <;> simp
  case deactivate =>
    subst hs
    exact h.goto hi (iff_of_false (by simp) (by simp [State.Inside, hpc]))

theorem notifyTick_heldInside {s s' : State} {g : ℕ} {frees : Bool} (h : HeldInside s)
    (hs : notifyTick s g frees = some s') : HeldInside s' := by
  have hother : ∀ (pc : Notify) (lck : Option Party) (q : Party), q ≠ .notifier g →
      (State.Inside ⟨{ s.base with notifies := Function.update s.base.notifies g pc }, lck⟩ q ↔
        s.Inside q) := by
    intro pc lck q hq
    cases q with
    | waiter i => rfl
    | notifier g' =>
      have hg : g' ≠ g := by
        intro he
        exact hq (by rw [he])
      simp [State.Inside, hg]
  cases hpc : s.base.notifies g <;>
    simp only [notifyTick, hpc, Option.ite_none_right_eq_some, Option.some.injEq,
      reduceCtorEq] at hs
  case lock =>
    obtain ⟨hfree, rfl⟩ := hs
    refine ⟨?_, h.idle⟩
    refine holder_acquire h.holder hfree rfl ?_ (hother _ _)
    simp [State.Inside]
  case broadcast =>
    subst hs
    refine ⟨holder_same h.holder rfl ?_, ?_⟩
    · intro q
      cases q with
      | waiter i =>
        by_cases ha : s.base.waits i = .asleep <;> simp [State.Inside, Generations.wakeAll, ha]
      | notifier g' =>
        by_cases hg : g' = g
        · subst hg
          simp [State.Inside, Generations.wakeAll, hpc]
        · simp [State.Inside, Generations.wakeAll, hg]
    · intro i hi
      have hn := h.idle i hi
      simp [Generations.wakeAll, hn]
  case unlock =>
    subst hs
    refine ⟨?_, h.idle⟩
    refine holder_release (p := .notifier g) h.holder (.inr hpc) rfl ?_ (hother _ _)
    simp [State.Inside]

theorem step_heldInside {s s' : State} {l : Label} (h : HeldInside s) (hd : FindsIncomplete s l)
    (hs : step s l = some s') : HeldInside s' := by
  cases l with
  | reset nwait =>
    simp only [step, Option.ite_none_right_eq_some, Option.some.injEq] at hs
    obtain ⟨hdone, rfl⟩ := hs
    refine ⟨holder_same h.holder rfl ?_, fun _ _ => rfl⟩
    intro q
    cases q with
    | waiter i =>
      -- all calls of the last generation have returned, and the others were never made
      have hout : ¬s.Inside (.waiter i) := by
        rcases Nat.lt_or_ge i s.base.quota with hlt | hge
        · simp [State.Inside, hdone i hlt]
        · simp [State.Inside, h.idle i hge]
      exact iff_of_false (by simp [State.Inside, Generations.reset]) hout
    | notifier g => rfl
  | wait i =>
    simp only [step, Option.ite_none_right_eq_some, Option.some.injEq] at hs
    obtain ⟨⟨hi, hn⟩, rfl⟩ := hs
    have hfound : s.base.event.eventState = activeIncomplete := hd
    rw [if_pos hfound]
    refine ⟨holder_same h.holder rfl ?_, ?_⟩
    · intro q
      by_cases hq : q = .waiter i
      · subst hq
        simp [State.Inside, Generations.goto, hn]
      · exact inside_goto (e := s.base.event) hq
    · intro j hj
      change s.base.quota ≤ j at hj
      have hne : j ≠ i := by omega
      simpa [Generations.goto, hne] using h.idle j hj
  | tick i => exact tick_heldInside h hs
  | unlock i frees =>
    simp only [step, Option.ite_none_right_eq_some, Option.some.injEq] at hs
    obtain ⟨hi, rfl⟩ := hs
    exact h.leave (.inr (.inr hi)) (by simp) frees
  | spurious i =>
    simp only [step, Option.ite_none_right_eq_some, Option.some.injEq] at hs
    obtain ⟨hi, rfl⟩ := hs
    exact h.goto (e := s.base.event) (by simp [hi])
      (iff_of_false (by simp) (by simp [State.Inside, hi]))
  | notify g =>
    simp only [step, Option.ite_none_right_eq_some, Option.some.injEq] at hs
    obtain ⟨⟨-, hn⟩, rfl⟩ := hs
    refine ⟨holder_same h.holder rfl ?_, h.idle⟩
    intro q
    cases q with
    | waiter i => rfl
    | notifier g' =>
      by_cases hg : g' = g
      · subst hg
        simp [State.Inside, Generations.store, hn]
      · simp [State.Inside, Generations.store, hg]
  | notifyTick g frees => exact notifyTick_heldInside h hs

/-- A run whose calls of `wait` all find the event incomplete keeps the lock's discipline. -/
theorem disciplined_reachable {s : State} (hr : system.Reachable FindsIncomplete s) :
    Disciplined s := by
  refine (hr.invariant (I := HeldInside) ⟨?_, fun _ _ => rfl⟩ ?_).disciplined
  · intro q
    cases q with
    | waiter i => simp [system, State.Inside]
    | notifier g => by_cases hg : g = 0 <;> simp [system, State.Inside, hg]
  · intro s l s' h hd hs
    exact step_heldInside h hd hs

theorem disciplined_timelyRun : Disciplined (system.final timelyRun) :=
  disciplined_reachable (System.reachable_final (by decide))

/-- The event completes before the call of `wait`, which then releases a lock that it has not
taken: the lock is free, or the notifier holds it and may lose it. -/
def lateRun (ticks : List Label) : List Label :=
  [.reset 1, .notify 1] ++ ticks ++ [.wait 0, .tick 0]

theorem not_disciplined_lateRun :
    ¬(∀ s, system.Reachable (fun _ _ => True) s → Disciplined s) ∧
      (system.final (lateRun [])).base.waits 0 = .unlock ∧
      (system.final (lateRun [])).lck = none ∧
      (system.final (lateRun [.notifyTick 1 false])).base.waits 0 = .unlock ∧
      (system.final (lateRun [.notifyTick 1 false])).lck = some (.notifier 1) ∧
      (system.final (lateRun [.notifyTick 1 false] ++ [.unlock 0 true])).lck = none ∧
      (system.final (lateRun [.notifyTick 1 false] ++ [.unlock 0 true])).base.notifies 1 =
        .broadcast := by
  refine ⟨?_, by decide, by decide, by decide, by decide, by decide, by decide⟩
  intro hall
  have h := hall (system.final (lateRun [])) (System.reachable_final (by decide))
  have hheld := h.unlock 0 (by decide)
  have hfree : (system.final (lateRun [])).lck = none := by decide
  rw [hfree] at hheld
  cases hheld

end PFunc.WaitableEvent.Pthread
