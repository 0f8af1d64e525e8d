import PFunc.Continuations
import PFunc.WindowsCond

/-!
# Broadcasts on Windows

A broadcast that has released the semaphore returns: the threads that it has woken let each
other out, whatever the rest of the program does. Where nobody signals, the semaphore has no
token left over, so a broadcast fails exactly when more than `MAX_COUNT` threads wait, and then,
in the build with exceptions, nobody ever leaves the queue.
-/

namespace PFunc.WindowsCond

open LabelledRuns System Locks Headcounts Monitors

variable {P σ C : Type} [DecidableEq P] [Fintype P] {K : Program P σ C} {s s' : State P σ C}
  {p q : P} {c : C} {shared : σ}

/-! ### A broadcast returns -/

/-- In a broadcast that drains the queue, or on the way out of `wait` up to the mutex. -/
def Pc.drainer : Pc C → Bool
  | .queued _ | .wokenEnter _ | .decrementing _ | .decremented _ _ | .lastOut _ | .postedAll _
  | .awaiting _ | .clearing _ => true
  | _ => false

/-- A bound for what is left to do there. -/
def Pc.rank : Pc C → ℕ
  | .queued _ => 5
  | .wokenEnter _ => 4
  | .decrementing _ => 3
  | .decremented _ _ => 2
  | .lastOut _ => 1
  | .postedAll _ => 3
  | .awaiting _ => 2
  | .clearing _ => 1
  | _ => 0

/-- The step is one of a thread there. -/
def Draining (s : State P σ C) (p : P) : Prop := (s.pc p).drainer = true

instance (s : State P σ C) (p : P) : Decidable (Draining s p) :=
  inferInstanceAs (Decidable ((s.pc p).drainer = true))

omit [Fintype P] in
theorem rank_lt (hd : Draining s p) (he : Effect K s p s') : (s'.pc p).rank < (s.pc p).rank := by
  unfold Draining at hd
  cases he <;> rename_i hp <;> rw [hp] at hd ⊢ <;> simp only [Pc.drainer, Bool.false_eq_true] at hd
  case decremented c lastWaiter => cases lastWaiter <;> simp [Pc.rank]
  all_goals simp [Pc.rank]

theorem total_rank_lt (hd : Draining s p) (he : Effect K s p s') :
    total Pc.rank s'.pc < total Pc.rank s.pc := by
  have hupdate := total_update Pc.rank s.pc p (s'.pc p)
  have hlt := rank_lt hd he
  rw [← he.pc_eq] at hupdate
  omega

/-- Where the broadcast that was called at `c` is until it returns, and then. -/
def Pc.Returning (K : Program P σ C) (c : C) : Pc C → Prop
  | .postedAll c' => c' = c
  | .awaiting c' => c' = c
  | .clearing c' => c' = c
  | .at c' => c' = K.next c
  | _ => False

/-- Somebody there can move. -/
def State.Moves (K : Program P σ C) (s : State P σ C) : Prop :=
  ∃ q, Draining s q ∧ (step K s q).isSome

/-- Whoever is in the critical section while a broadcast drains is on the way out. -/
theorem moves_of_inside (h : s.Invariant K) (hp : s.pc p = .awaiting c) (hq : (s.pc q).inside) :
    s.Moves K := by
  have hqp : q ≠ p := by
    rintro rfl
    simp [hp, Pc.inside] at hq
  have hout : (s.pc q).holds K = false := by
    by_contra hholds
    rw [Bool.not_eq_false] at hholds
    exact hqp (h.locks.mtx.unique hholds (by simp [hp, Pc.holds]))
  cases hc : s.pc q <;> simp [hc, Pc.inside, Pc.holds] at hq hout
  case decrementing c' => exact ⟨q, by simp [Draining, hc, Pc.drainer], by simp [step, hc]⟩
  case decremented b c' => exact ⟨q, by simp [Draining, hc, Pc.drainer], by simp [step, hc]⟩

/-- A counted thread moves on, or somebody who keeps it from entering the critical section. -/
theorem moves_of_counted (h : s.Invariant K) (hp : s.pc p = .awaiting c) (hq : (s.pc q).counted) :
    s.Moves K := by
  have hout : (s.pc q).holds K = false := by
    by_contra hholds
    rw [Bool.not_eq_false] at hholds
    have hqp := h.locks.mtx.unique hholds (q := p) (by simp [hp, Pc.holds])
    simp [hqp, hp, Pc.counted] at hq
  cases hc : s.pc q <;> simp [hc, Pc.counted, Pc.holds] at hq hout
  case queued c' =>
    have htokens := h.drained.tokens p (by simp [hp, Pc.draining])
    have hpos : 0 < headcount Pc.isQueued s.pc := headcount_pos.mpr ⟨q, by simp [hc, Pc.isQueued]⟩
    have htoken : 0 < s.threadQueue := by omega
    exact ⟨q, by simp [Draining, hc, Pc.drainer], by simp [step, hc, htoken]⟩
  case wokenEnter c' =>
    cases hlock : s.numWaitersLock with
    | none =>
      exact ⟨q, by simp [Draining, hc, Pc.drainer], by simp [step, hc, State.enter, hlock]⟩
    | some r => exact moves_of_inside h hp (h.locks.entered r hlock)
  case decrementing c' => exact moves_of_inside h hp (q := q) (by simp [hc, Pc.inside])

/-- A broadcast that has released the semaphore is not stuck. -/
theorem moves_of_returning (h : s.Invariant K) (hp : (s.pc p).Returning K c)
    (hnot : s.pc p ≠ .at (K.next c)) : s.Moves K := by
  cases hc : s.pc p <;> simp only [hc, Pc.Returning] at hp <;> subst hp
  case «at» => exact absurd hc hnot
  case postedAll => exact ⟨p, by simp [Draining, hc, Pc.drainer], by simp [step, hc]⟩
  case clearing => exact ⟨p, by simp [Draining, hc, Pc.drainer], by simp [step, hc]⟩
  case awaiting =>
    have hawaited : _ + _ = _ := h.drained.awaited p (by simp [hc, Pc.draining])
    cases hevent : s.allAwakeEvent with
    | true => exact ⟨p, by simp [Draining, hc, Pc.drainer], by simp [step, hc, hevent]⟩
    | false =>
      rw [hevent, Bool.toNat_false, add_zero] at hawaited
      split at hawaited
      · obtain ⟨q, hq⟩ := headcount_pos.mp (hawaited ▸ Nat.one_pos)
        cases hcq : s.pc q <;> simp [hcq, Pc.isLast] at hq
        case decremented b c' =>
          exact ⟨q, by simp [Draining, hcq, Pc.drainer], by simp [step, hcq]⟩
        case lastOut c' => exact ⟨q, by simp [Draining, hcq, Pc.drainer], by simp [step, hcq]⟩
      · have hpos : 0 < headcount Pc.counted s.pc := by
          rw [← h.locks.numWaiters]
          omega
        obtain ⟨q, hq⟩ := headcount_pos.mp hpos
        exact moves_of_counted h hc hq

omit [Fintype P] in
theorem returning_step (hd : Draining s q) (he : Effect K s q s') (hp : (s.pc p).Returning K c) :
    (s'.pc p).Returning K c := by
  rw [he.pc_eq]
  by_cases hpq : p = q
  · subst hpq
    rw [Function.update_self]
    unfold Draining at hd
    cases he <;> rename_i hpc <;> rw [hpc] at hd hp <;>
      simp_all [Pc.Returning, Pc.drainer]
  · rwa [Function.update_of_ne hpq]

/-- From where a broadcast has released the semaphore, no run of the threads that take part is
longer than five steps for each thread, and none ends before the broadcast has returned. -/
theorem broadcast_returns (hr : (system K shared).Reachable (fun _ _ => True) s)
    (hp : (s.pc p).Returning K c) {ps : List P} {t : State P σ C}
    (ha : (system K shared).Along (fun s p _ => Draining s p) s ps)
    (ht : (system K shared).run s ps = some t) :
    ps.length ≤ Fintype.card P * 5 ∧ (t.pc p = .at (K.next c) ∨ t.Moves K) := by
  have hkeep : ∀ s q s', s.Invariant K ∧ (s.pc p).Returning K c → Draining s q →
      step K s q = some s' → s'.Invariant K ∧ (s'.pc p).Returning K c := by
    intro s q s' ⟨h, hp⟩ hd hs
    exact ⟨h.step (step_effect hs), returning_step hd (step_effect hs) hp⟩
  have hstart := And.intro (invariant_reachable hr) hp
  constructor
  · have hlength := length_le_of_along (f := fun s => total Pc.rank s.pc)
      (I := fun s => s.Invariant K ∧ (s.pc p).Returning K c)
      (fun s q s' hI hd hs => ⟨hkeep s q s' hI hd hs, total_rank_lt hd (step_effect hs)⟩)
      hstart ha ht
    have hbound : total Pc.rank s.pc ≤ Fintype.card P * 5 :=
      total_le_mul fun c => by cases c <;> simp [Pc.rank]
    omega
  · obtain ⟨h, hp⟩ := run_keeps (I := fun s => s.Invariant K ∧ (s.pc p).Returning K c) hkeep
      hstart ha ht
    by_cases hdone : t.pc p = .at (K.next c)
    · exact .inl hdone
    · exact .inr (moves_of_returning h hp hdone)

/-- Thread `false` waits and thread `true` broadcasts, again and again. -/
inductive Turn where
  | out
  | choose
  | wait
  | broadcast
  | unlock
  deriving DecidableEq

def turns : Program Bool Unit Turn where
  start := .out
  op
    | .out => .lock
    | .choose => .update fun p s => (s, if p then .broadcast else .wait)
    | .wait => .wait
    | .broadcast => .broadcast
    | .unlock => .unlock
  next
    | .out => .choose
    | .unlock => .out
    | _ => .unlock
  holds c := c ≠ .out
  start_holds := rfl
  update_holds := by
    intro c f h p s
    cases c <;> cases h
    simp only
    split <;> rfl
  lock_holds := by
    intro c h
    cases c <;> cases h
    decide
  unlock_holds := by
    intro c h
    cases c <;> cases h
    decide
  call_holds := by
    intro c h
    cases c <;> first | exact h.elim | decide

/-- Thread `false` is queued, and thread `true` has released the semaphore. -/
def postedRun : List Bool := List.replicate 7 false ++ List.replicate 7 true

theorem broadcast_returns_postedRun :
    let s := (system turns ()).final postedRun
    let ps := [true] ++ List.replicate 5 false ++ [true, true]
    let t := ((system turns ()).run s ps).getD s
    ps.length ≤ Fintype.card Bool * 5 ∧
      (t.pc true = .at (turns.next .broadcast) ∨ t.Moves turns) := by
  intro s ps t
  have hr : (system turns ()).Reachable (fun _ _ => True) s := reachable_final (by decide)
  have hp : (s.pc true).Returning turns .broadcast := (rfl : Turn.broadcast = Turn.broadcast)
  have ha : (system turns ()).Along (fun s p _ => Draining s p) s ps := by decide
  exact broadcast_returns hr hp ha rfl

/-- When a broadcast has got its event, everybody who waited has left the queue and the counter
behind, and only the broadcast has a use for `was_broadcast`. -/
theorem broadcast_drained (hr : (system K shared).Reachable (fun _ _ => True) s)
    (hp : s.pc p = .clearing c) :
    s.numWaiters = 0 ∧ s.allAwakeEvent = false ∧
      ∀ q, (s.pc q).counted = false ∧ (s.pc q).isLast = false ∧
        (q ≠ p → (s.pc q).holds K = false) := by
  have h := invariant_reachable hr
  have hzero := h.drained.cleared p (by simp [hp, Pc.isClearing])
  have hholds : (s.pc p).holds K := by simp [hp, Pc.holds]
  obtain ⟨hlast, hevent⟩ :=
    h.drained.quiet (h.locks.not_draining hholds (by simp [hp, Pc.draining]))
  refine ⟨hzero, hevent, fun q => ⟨?_, headcount_eq_zero.mp hlast q, ?_⟩⟩
  · exact headcount_eq_zero.mp (h.locks.numWaiters ▸ hzero) q
  · intro hq
    by_contra hother
    rw [Bool.not_eq_false] at hother
    exact hq (h.locks.mtx.unique hother hholds)

theorem broadcast_drained_postedRun :
    let s := (system turns ()).final (postedRun ++ [true] ++ List.replicate 5 false ++ [true])
    s.numWaiters = 0 ∧ s.allAwakeEvent = false ∧
      ∀ q, (s.pc q).counted = false ∧ (s.pc q).isLast = false ∧
        (q ≠ true → (s.pc q).holds turns = false) := by
  intro s
  have hr : (system turns ()).Reachable (fun _ _ => True) s := reachable_final (by decide)
  have hp : s.pc true = .clearing .broadcast := by decide
  exact broadcast_drained hr hp

/-! ### Without signals -/

/-- No point of the program signals. -/
def Silent (K : Program P σ C) : Prop := ∀ c, K.op c ≠ .signal

/-- Off the semaphore and still counted. -/
def Pc.isWoken : Pc C → Bool
  | .wokenEnter _ | .decrementing _ => true
  | _ => false

def Pc.isThrown : Pc C → Bool
  | .thrown _ _ => true
  | _ => false

/-- The semaphore has a token for each queued thread while a broadcast drains, and none
otherwise. -/
structure State.Thrifty (s : State P σ C) : Prop where
  tokens : ∀ p, (s.pc p).draining → s.threadQueue = headcount Pc.isQueued s.pc
  rest : (∀ p, (s.pc p).draining = false) → s.threadQueue = 0 ∧ headcount Pc.isWoken s.pc = 0

namespace State.Thrifty

variable (f : s.Thrifty)

include f

theorem move {c : Pc C} (hpc : s'.pc = Function.update s.pc p c)
    (hdraining : c.draining = (s.pc p).draining)
    (htokens : (∃ q, (s.pc q).draining) → s.threadQueue = headcount Pc.isQueued s.pc →
      s'.threadQueue = headcount Pc.isQueued s'.pc)
    (hrest : (∀ q, (s.pc q).draining = false) → s.threadQueue = 0 →
      headcount Pc.isWoken s.pc = 0 → s'.threadQueue = 0 ∧ headcount Pc.isWoken s'.pc = 0) :
    s'.Thrifty := by
  have hdrains : ∀ q, (s'.pc q).draining = (s.pc q).draining := by
    rw [hpc]
    exact kind_update_same hdraining
  constructor
  · intro q hq
    have hold : (s.pc q).draining := hdrains q ▸ hq
    exact htokens ⟨q, hold⟩ (f.tokens q hold)
  · intro hnone
    have hold : ∀ q, (s.pc q).draining = false := fun q => hdrains q ▸ hnone q
    exact hrest hold (f.rest hold).1 (f.rest hold).2

theorem idle {c : Pc C} (hpc : s'.pc = Function.update s.pc p c)
    (hqueued : c.isQueued = (s.pc p).isQueued) (hwoken : c.isWoken = (s.pc p).isWoken)
    (hdraining : c.draining = (s.pc p).draining) (htokens : s'.threadQueue = s.threadQueue) :
    s'.Thrifty := by
  apply f.move hpc hdraining
  · intro _ hold
    rw [htokens, hpc, headcount_update_same hqueued]
    exact hold
  · intro _ hzero hnone
    rw [htokens, hpc, headcount_update_same hwoken]
    exact ⟨hzero, hnone⟩

/-- While nobody drains, a thread that holds the mutex finds that whoever is counted is queued. -/
theorem counted_eq (h : s.Invariant K) (hp : (s.pc p).holds K) (hd : (s.pc p).draining = false)
    (hsame : (s.pc p).counted = (s.pc p).isQueued) (q : P) :
    (s.pc q).counted = (s.pc q).isQueued := by
  by_cases hqp : q = p
  · rw [hqp, hsame]
  · have hwoken := headcount_eq_zero.mp (f.rest (h.locks.not_draining hp hd)).2 q
    have hout : (s.pc q).holds K = false := by
      by_contra hother
      rw [Bool.not_eq_false] at hother
      exact hqp (h.locks.mtx.unique hother hp)
    cases hc : s.pc q <;> simp_all [Pc.counted, Pc.isQueued, Pc.isWoken, Pc.holds]

omit [DecidableEq P] [Fintype P] f in
theorem woken_of_counted {c : Pc C} (hc : c.counted = false) : c.isWoken = false := by
  cases c <;> simp_all [Pc.counted, Pc.isWoken]

/-- Who queues up holds the mutex, so no broadcast is going on. -/
theorem releasing {c : C} (h : s.Invariant K) (hp : s.pc p = .releasing c) :
    State.Thrifty { s.goto p (.queued c) with mtx := none } := by
  have hholds : (s.pc p).holds K := by simp [hp, Pc.holds]
  have hnone := h.locks.not_draining hholds (by simp [hp, Pc.draining])
  apply f.move (p := p) (c := .queued c) rfl (by simp [hp, Pc.draining])
  · rintro ⟨q, hq⟩
    rw [hnone q] at hq
    cases hq
  · intro _ hzero hwoken
    refine ⟨hzero, ?_⟩
    change headcount Pc.isWoken (Function.update s.pc p _) = 0
    rwa [headcount_update_same (by simp [hp, Pc.isWoken])]

/-- A token is taken by a queued thread, which broadcasts alone make possible. -/
theorem queued {c : C} (hpos : 0 < s.threadQueue) (hp : s.pc p = .queued c) :
    State.Thrifty { s.goto p (.wokenEnter c) with threadQueue := s.threadQueue - 1 } := by
  have hless := s.queued_update p (.wokenEnter c)
  simp only [hp, Pc.isQueued, Bool.toNat_false, Bool.toNat_true, add_zero] at hless
  apply f.move (p := p) (c := .wokenEnter c) rfl (by simp [hp, Pc.draining])
  · intro _ htokens
    change s.threadQueue - 1 = headcount Pc.isQueued (Function.update s.pc p _)
    omega
  · intro _ hzero _
    omega

theorem decrementing {c : C} (hp : s.pc p = .decrementing c) :
    State.Thrifty { s.goto p (.decremented (s.wasBroadcast && s.numWaiters - 1 == 0) c) with
      numWaiters := s.numWaiters - 1 } := by
  apply f.move (p := p) (c := .decremented (s.wasBroadcast && s.numWaiters - 1 == 0) c) rfl
    (by simp [hp, Pc.draining])
  · intro _ htokens
    change s.threadQueue = headcount Pc.isQueued (Function.update s.pc p _)
    rwa [headcount_update_same (by simp [hp, Pc.isQueued])]
  · intro _ _ hnone
    have := headcount_eq_zero.mp hnone p
    simp [hp, Pc.isWoken] at this

/-- Whoever is counted when the broadcast posts the tokens is queued. -/
theorem postedAll {c : C} (h : s.Invariant K) (hp : s.pc p = .postingAll c) :
    State.Thrifty { s.goto p (.postedAll c) with
      threadQueue := s.threadQueue + s.numWaiters } := by
  have hholds : (s.pc p).holds K := by simp [hp, Pc.holds]
  have hnone := h.locks.not_draining hholds (by simp [hp, Pc.draining])
  have htokens := (f.rest hnone).1
  have hcounted := f.counted_eq h hholds (by simp [hp, Pc.draining])
    (by simp [hp, Pc.counted, Pc.isQueued])
  have hsame := s.queued_update p (.postedAll c)
  simp only [hp, Pc.isQueued, Bool.toNat_false, add_zero] at hsame
  have hwaiters : s.numWaiters = headcount Pc.isQueued s.pc := by
    rw [h.locks.numWaiters]
    exact le_antisymm (headcount_mono fun q hq => hcounted q ▸ hq)
      (headcount_mono fun q hq => (hcounted q).symm ▸ hq)
  refine ⟨fun q _ => ?_, fun hnone' => ?_⟩
  · change s.threadQueue + s.numWaiters = headcount Pc.isQueued (Function.update s.pc p _)
    omega
  · have := hnone' p
    simp [Pc.draining] at this

/-- Every token has been taken when the broadcast ends. -/
theorem awaiting {c : C} (h : s.Invariant K) (hevent : s.allAwakeEvent = true)
    (hp : s.pc p = .awaiting c) :
    State.Thrifty { s.goto p (.clearing c) with allAwakeEvent := false } := by
  have hnew := h.step (.awaiting hevent hp)
  have hzero := hnew.drained.cleared p (by simp [Pc.isClearing])
  have hcounted := headcount_eq_zero.mp (hnew.locks.numWaiters ▸ hzero)
  have hqueue : headcount Pc.isQueued (Function.update s.pc p (.clearing c)) = 0 :=
    headcount_eq_zero.mpr fun q => hnew.locks.not_queued hzero q
  have hnone : ∀ q, Pc.draining (Function.update s.pc p (.clearing c) q) = false :=
    hnew.locks.not_draining (p := p) (by simp [Pc.holds]) (by simp [Pc.draining])
  have htokens := f.tokens p (by simp [hp, Pc.draining])
  have hsame := s.queued_update p (.clearing c)
  simp only [hp, Pc.isQueued, Bool.toNat_false, add_zero] at hsame
  refine ⟨fun q hq => ?_, fun _ => ⟨?_, headcount_eq_zero.mpr fun q => ?_⟩⟩
  · change Pc.draining (Function.update s.pc p _ q) = true at hq
    rw [hnone q] at hq
    cases hq
  · change s.threadQueue = 0
    omega
  · exact woken_of_counted (hcounted q)

theorem step (h : s.Invariant K) (hsilent : Silent K) (he : Effect K s p s') : s'.Thrifty := by
  have hbelongs := h.locks.belongs p
  cases he <;> rename_i hp
  case releasing c => exact f.releasing h hp
  case queued c hpos => exact f.queued hpos hp
  case decrementing c => exact f.decrementing hp
  case postedAll c hmax => exact f.postedAll h hp
  case awaiting c hevent => exact f.awaiting h hevent hp
  case posted c hmax => exact (hsilent c (by simpa [hp, Pc.Belongs] using hbelongs)).elim
  case decremented c lastWaiter =>
    cases lastWaiter <;>
      refine f.idle (p := p) rfl ?_ ?_ ?_ rfl <;> simp [hp, Pc.isQueued, Pc.isWoken, Pc.draining]
  case signalLeave c waitersPresent =>
    cases waitersPresent <;>
      refine f.idle (p := p) rfl ?_ ?_ ?_ rfl <;> simp [hp, Pc.isQueued, Pc.isWoken, Pc.draining]
  all_goals
    refine f.idle (p := p) rfl ?_ ?_ ?_ rfl <;> simp [hp, Pc.isQueued, Pc.isWoken, Pc.draining]

end State.Thrifty

theorem thrifty_reachable (hsilent : Silent K)
    (hr : (system K shared).Reachable (fun _ _ => True) s) : s.Thrifty := by
  apply hr.invariant' (I := State.Thrifty)
  · exact ⟨fun _ hp => (by cases hp), fun _ => ⟨rfl, headcount_eq_zero.mpr fun _ => rfl⟩⟩
  · intro s p s' hr f _ hs
    exact f.step (invariant_reachable hr) hsilent (step_effect hs)

/-- With at most one thread more than `MAX_COUNT` no broadcast fails. -/
theorem not_thrown (hsilent : Silent K) (hcard : Fintype.card P ≤ maxCount + 1)
    (hr : (system K shared).Reachable (fun _ _ => True) s) : ∀ p, (s.pc p).isThrown = false := by
  apply hr.invariant' (I := fun s => ∀ p, (s.pc p).isThrown = false)
  · intro p
    rfl
  · intro s p s' hr hnone _ hs q
    have h := invariant_reachable hr
    have f := thrifty_reachable hsilent hr
    have he := step_effect hs
    have hbelongs := h.locks.belongs p
    rw [he.pc_eq]
    by_cases hqp : q = p
    · subst hqp
      rw [Function.update_self]
      cases he <;> rename_i hp <;> rw [hp] at hbelongs
      case decremented c lastWaiter => cases lastWaiter <;> simp [Pc.isThrown]
      case signalLeave c waitersPresent => cases waitersPresent <;> simp [Pc.isThrown]
      case postingFailed c hmax => exact (hsilent c hbelongs).elim
      case postingAllFailed c hmax =>
        have hnone := h.locks.not_draining (p := q) (by simp [hp, Pc.holds])
          (by simp [hp, Pc.draining])
        have hgone : Pc.counted (s.pc q) = false := by simp [hp, Pc.counted]
        have hlt := headcount_lt_card hgone
        have := (f.rest hnone).1
        have := h.locks.numWaiters
        omega
      all_goals simp [Pc.isThrown]
    · rw [Function.update_of_ne hqp]
      exact hnone q

/-! ### Threads that are stuck -/

omit [Fintype P] in
/-- Inside the critical section nobody is held up. -/
theorem not_inside_of_stuck (hthrown : (s.pc p).isThrown = false) (hstuck : step K s p = none) :
    (s.pc p).inside = false := by
  cases hc : s.pc p <;> rw [hc] at hthrown <;> try rfl
  case thrown => cases hthrown
  all_goals
    simp only [step, hc] at hstuck
    cases hstuck

theorem critical_free_of_stuck (h : s.Invariant K) (hthrown : ∀ p, (s.pc p).isThrown = false)
    (hstuck : ∀ p, step K s p = none) : s.numWaitersLock = none := by
  cases hlock : s.numWaitersLock with
  | none => rfl
  | some r =>
    have hr := h.locks.entered r hlock
    rw [not_inside_of_stuck (hthrown r) (hstuck r)] at hr
    cases hr

/-- Who holds the mutex can enter the critical section or goes on. -/
theorem not_holds_of_stuck (h : s.Invariant K) (hthrown : ∀ p, (s.pc p).isThrown = false)
    (hstuck : ∀ p, step K s p = none) (q : P) : (s.pc q).holds K = false := by
  have hfree := critical_free_of_stuck h hthrown hstuck
  have hq := hstuck q
  have hnot := hthrown q
  have hin := not_inside_of_stuck hnot hq
  cases hc : s.pc q <;> rw [hc] at hnot hin <;> try rfl
  case «at» c =>
    simp only [step, hc] at hq
    cases hop : K.op c <;> simp only [hop] at hq
    case lock => exact (K.lock_holds hop).1
    all_goals cases hq
  case awaiting c =>
    have hreturning : (s.pc q).Returning K c := by simp [hc, Pc.Returning]
    obtain ⟨r, -, hmove⟩ := moves_of_returning h hreturning (by simp [hc])
    rw [hstuck r] at hmove
    cases hmove
  case thrown => cases hnot
  all_goals
    first
    | exact absurd hin.symm Bool.false_ne_true
    | simp [step, hc, State.enter, hfree] at hq

theorem mutex_free_of_stuck (h : s.Invariant K) (hthrown : ∀ p, (s.pc p).isThrown = false)
    (hstuck : ∀ p, step K s p = none) : s.mtx = none := by
  cases hlock : s.mtx with
  | none => rfl
  | some r =>
    have hr := h.locks.owner r hlock
    rw [not_holds_of_stuck h hthrown hstuck r] at hr
    cases hr

/-- A program in which nobody signals and no broadcast fails is stuck only if all threads wait. -/
theorem queued_of_stuck (hr : (system K shared).Reachable (fun _ _ => True) s)
    (hthrown : ∀ p, (s.pc p).isThrown = false) (hstuck : ∀ p, step K s p = none) :
    ∀ p, (s.pc p).isQueued := by
  have h := invariant_reachable hr
  have hfree := critical_free_of_stuck h hthrown hstuck
  have hmtx := mutex_free_of_stuck h hthrown hstuck
  intro p
  have hp := hstuck p
  have hholds := not_holds_of_stuck h hthrown hstuck p
  have hin := not_inside_of_stuck (hthrown p) hp
  cases hc : s.pc p <;> rw [hc] at hholds hin <;> try rfl
  case «at» c =>
    simp only [step, hc] at hp
    cases hop : K.op c <;> simp only [hop] at hp <;>
      simp [State.lock, hmtx] at hp
  case awaiting => cases hholds
  case thrown => cases hholds
  all_goals
    first
    | exact absurd hin.symm Bool.false_ne_true
    | simp [step, hc, State.enter, State.lock, hfree, hmtx] at hp

/-- A broadcast has failed at `p`; the queued threads stay where they are. -/
structure State.Lost (K : Program P σ C) (p : P) (c : C) (waiting : P → Bool) (s : State P σ C) :
    Prop where
  invariant : s.Invariant K
  thrifty : s.Thrifty
  thrown : s.pc p = .thrown true c
  queued : ∀ q, waiting q → (s.pc q).isQueued

omit [DecidableEq P] in
theorem State.Lost.owns {waiting : P → Bool} (h : s.Lost K p c waiting) :
    s.mtx = some p ∧ s.numWaitersLock = some p :=
  ⟨h.invariant.locks.mtx p (by simp [h.thrown, Pc.holds]),
    h.invariant.locks.critical p (by simp [h.thrown, Pc.inside])⟩

theorem State.Lost.step {waiting : P → Bool} (h : s.Lost K p c waiting) (hsilent : Silent K)
    (hs : step K s q = some s') : s'.Lost K p c waiting := by
  have he := step_effect hs
  have hqp : q ≠ p := by
    rintro rfl
    simp [WindowsCond.step, h.thrown] at hs
  have hnone := h.invariant.locks.not_draining (p := p) (by simp [h.thrown, Pc.holds])
    (by simp [h.thrown, Pc.draining])
  have hempty := (h.thrifty.rest hnone).1
  refine ⟨h.invariant.step he, h.thrifty.step h.invariant hsilent he, ?_, ?_⟩
  · rw [he.pc_eq, Function.update_of_ne (Ne.symm hqp), h.thrown]
  · intro r hr
    have hold := h.queued r hr
    by_cases hrq : r = q
    · subst hrq
      cases hc : s.pc r <;> simp [hc, Pc.isQueued] at hold
      simp [WindowsCond.step, hc, hempty] at hs
    · rw [he.pc_eq, Function.update_of_ne hrq]
      exact hold

/-- Where nobody signals, a broadcast fails iff more than `MAX_COUNT` threads wait, and then it
wakes none of them. The exception ends its thread: whatever happens later, they stay in the queue,
and the mutex and the critical section stay locked. -/
theorem broadcast_fails_iff (hsilent : Silent K)
    (hr : (system K shared).Reachable (fun _ _ => True) s) (hp : s.pc p = .postingAll c)
    (hs : step K s p = some s') :
    (s'.pc p = .thrown true c ↔ maxCount < headcount Pc.counted s.pc) ∧
      (s'.pc p = .thrown true c → ∀ ps t, (system K shared).run s' ps = some t →
        t.mtx = some p ∧ t.numWaitersLock = some p ∧
          ∀ q, (s.pc q).counted → (t.pc q).isQueued) := by
  have h := invariant_reachable hr
  have f := thrifty_reachable hsilent hr
  have hholds : (s.pc p).holds K := by simp [hp, Pc.holds]
  have hd : (s.pc p).draining = false := by simp [hp, Pc.draining]
  have hempty := (f.rest (h.locks.not_draining hholds hd)).1
  have hcounted := f.counted_eq h hholds hd (by simp [hp, Pc.counted, Pc.isQueued])
  have hwaiters := h.locks.numWaiters
  simp only [step, hp, Option.some.injEq, State.release] at hs
  split at hs <;> subst hs
  · have hposted : State.pc { s.goto p (.postedAll c) with
        threadQueue := s.threadQueue + s.numWaiters } p = .postedAll c := by simp
    rw [hposted]
    refine ⟨iff_of_false (by simp) (by omega), by simp⟩
  · have hthrown : (s.goto p (.thrown true c)).pc p = .thrown true c := by simp
    refine ⟨iff_of_true hthrown (by omega), fun _ ps t ht => ?_⟩
    have hlost : (s.goto p (.thrown true c)).Lost K p c fun q => (s.pc q).counted := by
      have he : Effect K s p (s.goto p (.thrown true c)) := .postingAllFailed ‹_› hp
      refine ⟨h.step he, f.step h hsilent he, hthrown, fun q hq => ?_⟩
      have hqp : q ≠ p := by
        rintro rfl
        simp [hp, Pc.counted] at hq
      rw [State.goto_pc, Function.update_of_ne hqp, ← hcounted]
      exact hq
    have hend := run_keeps' (S := system K shared) (I := State.Lost K p c fun q => (s.pc q).counted)
      (fun _ _ _ hI hs => hI.step hsilent hs) hlost ht
    exact ⟨hend.owns.1, hend.owns.2, hend.queued⟩

theorem broadcast_fails_iff_postedRun :
    let s := (system turns ()).final (postedRun.take 13)
    let s' := (system turns ()).final postedRun
    (s'.pc true = .thrown true .broadcast ↔ maxCount < headcount Pc.counted s.pc) ∧
      (s'.pc true = .thrown true .broadcast → ∀ ps t, (system turns ()).run s' ps = some t →
        t.mtx = some true ∧ t.numWaitersLock = some true ∧
          ∀ q, (s.pc q).counted → (t.pc q).isQueued) := by
  intro s s'
  have hsilent : Silent turns := by
    intro c h
    cases c <;> cases h
  have hr : (system turns ()).Reachable (fun _ _ => True) s := reachable_final (by decide)
  exact broadcast_fails_iff hsilent hr (p := true) (c := .broadcast) (by decide) rfl

end PFunc.WindowsCond
