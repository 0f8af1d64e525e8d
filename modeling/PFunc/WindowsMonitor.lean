import PFunc.WindowsCond

/-!
# The Windows condition variable is a monitor's

Whatever the program, what happens to the mutex, the shared data and the waiting threads is a
run of the monitor: a signal gives a permit, the semaphore's, and a broadcast wakes exactly the
threads that wait when it releases the semaphore. It releases it for the threads too that have
been woken and have not left; theirs are the permits too many.
-/

namespace PFunc.WindowsCond

open LabelledRuns Locks Headcounts Monitors

variable {P σ C : Type} [DecidableEq P] [Fintype P] {K : Program P σ C} {s s' : State P σ C} {p : P}

/-! ### A signal in progress -/

/-- In a signal that has found somebody to wake. -/
def Pc.signalling : Pc C → Bool
  | .signalLeave waitersPresent _ => waitersPresent
  | .posting _ => true
  | _ => false

/-- On the semaphore, or woken and on the way out. -/
def Pc.inWait : Pc C → Bool
  | .queued _ | .wokenEnter _ | .decrementing _ | .decremented _ _ | .lastOut _
  | .relocking _ => true
  | _ => false

/-- Whoever a signal has found is still there when it releases the semaphore. -/
def State.Found (s : State P σ C) : Prop := ∀ p, (s.pc p).signalling → ∃ q, (s.pc q).inWait

omit [DecidableEq P] [Fintype P] in
theorem Pc.holds_of_signalling {c : Pc C} (h : c.signalling) : c.holds K := by
  cases c <;> simp_all [Pc.signalling, Pc.holds]

omit [Fintype P] in
theorem Effect.signalling (he : Effect K s p s') (h : (s'.pc p).signalling) :
    (s.pc p).signalling ∨ ∃ c, s.pc p = .signalTest c ∧ 0 < s.numWaiters := by
  cases he <;> rename_i hp
  case signalTest c => exact .inr ⟨c, hp, by simpa [Pc.signalling] using h⟩
  case signalLeave c waitersPresent => cases waitersPresent <;> simp_all [Pc.signalling]
  case decremented c lastWaiter => cases lastWaiter <;> simp [Pc.signalling] at h
  all_goals simp [Pc.signalling] at h

omit [Fintype P] in
/-- The way out of the wait leads through the mutex. -/
theorem Effect.inWait (he : Effect K s p s') (h : (s.pc p).inWait) :
    (s'.pc p).inWait ∨ s.mtx = none := by
  cases he <;> rename_i hp <;> rw [hp] at h
  case relocking c hfree => exact .inr hfree
  case decremented c lastWaiter => cases lastWaiter <;> exact .inl (by simp [Pc.inWait])
  all_goals simp [Pc.inWait] at h ⊢

omit [DecidableEq P] in
theorem State.Protected.inWait_of_counted {q : P} (h : s.Protected K) (hp : (s.pc p).holds K)
    (hout : (s.pc p).counted = false) (hq : (s.pc q).counted) : (s.pc q).inWait := by
  have hne : ∀ c, s.pc q = c → c.holds K = false := by
    rintro _ rfl
    by_contra hholds
    rw [Bool.not_eq_false] at hholds
    rw [h.mtx.unique hholds hp, hout] at hq
    cases hq
  cases hc : s.pc q with
  | incremented c => exact absurd (hne _ hc) (by simp [Pc.holds])
  | releasing c => exact absurd (hne _ hc) (by simp [Pc.holds])
  | _ => simp_all [Pc.counted, Pc.inWait]

theorem State.Found.step (hf : s.Found) (h : s.Protected K) (he : Effect K s p s') :
    s'.Found := by
  have hstays : ∀ q r, (s.pc q).inWait → (s.pc r).holds K → q ≠ r → ∃ q, (s'.pc q).inWait := by
    intro q r hq hr hqr
    by_cases hqp : q = p
    · subst hqp
      rcases he.inWait hq with hin | hfree
      · exact ⟨q, hin⟩
      · have hlocked := h.mtx r hr
        rw [hfree] at hlocked
        cases hlocked
    · refine ⟨q, ?_⟩
      rw [he.pc_eq, Function.update_of_ne hqp]
      exact hq
  have hbefore : ∀ r, (s.pc r).signalling → ∃ q, (s'.pc q).inWait := by
    intro r hr
    obtain ⟨q, hq⟩ := hf r hr
    refine hstays q r hq (Pc.holds_of_signalling hr) ?_
    rintro rfl
    cases hc : s.pc q <;> simp [hc, Pc.inWait, Pc.signalling] at hq hr
  intro r hr
  by_cases hrp : r = p
  · subst hrp
    rcases he.signalling hr with hold | ⟨c, hc, hpos⟩
    · exact hbefore r hold
    · -- the counter counts somebody, and nobody else is in a call under the mutex
      rw [h.numWaiters] at hpos
      obtain ⟨q, hq⟩ := headcount_pos.mp hpos
      have hholds : (s.pc r).holds K := by simp [hc, Pc.holds]
      refine hstays q r (h.inWait_of_counted hholds (by simp [hc, Pc.counted]) hq) hholds ?_
      rintro rfl
      simp [hc, Pc.counted] at hq
  · rw [he.pc_eq, Function.update_of_ne hrp] at hr
    exact hbefore r hr

theorem found_reachable {shared : σ} (hr : (system K shared).Reachable (fun _ _ => True) s) :
    s.Found := by
  refine (hr.invariant (I := fun s => s.Invariant K ∧ s.Found) ⟨invariant_initial shared, ?_⟩ ?_).2
  · intro p hp
    cases hp
  · intro s p s' h _ hs
    exact ⟨h.1.step (step_effect hs), h.2.step h.1.locks (step_effect hs)⟩

/-! ### The view -/

def State.drains (s : State P σ C) : Bool := decide (∃ p, (s.pc p).draining = true)

omit [DecidableEq P] in
theorem drains_eq_false_iff : s.drains = false ↔ ∀ p, (s.pc p).draining = false := by
  simp [State.drains]

/-- A broadcast takes effect where it releases the semaphore, a signal too, and either where it
finds that nobody waits. -/
def Pc.place (K : Program P σ C) (drains : Bool) : Pc C → Place C
  | .at c | .waitEnter c | .incrementing c | .incremented c | .releasing c | .signalEnter c
  | .signalTest c | .signalLeave true c | .posting c | .broadcastEnter c | .broadcastTest c
  | .marking c | .postingAll c | .thrown _ c => .at c
  | .queued c => if drains then .relocking c else .waiting c
  | .wokenEnter c | .decrementing c | .decremented _ c | .lastOut c | .relocking c => .relocking c
  | .signalLeave false c | .broadcastLeave c | .postedAll c | .awaiting c | .clearing c =>
    .at (K.next c)

/-- The count of the semaphore, less what a broadcast has released for the queued threads. -/
def State.permits (s : State P σ C) : ℕ :=
  if s.drains then s.threadQueue - headcount Pc.isQueued s.pc else s.threadQueue

def State.view (K : Program P σ C) (s : State P σ C) : Monitors.State P σ C where
  shared := s.shared
  owner := s.mtx
  permits := s.permits
  place := fun p => (s.pc p).place K s.drains

theorem drains_same {c : Pc C} (hpc : s'.pc = Function.update s.pc p c)
    (hc : c.draining = (s.pc p).draining) : s'.drains = s.drains := by
  unfold State.drains
  congr 1
  refine propext (exists_congr fun q => ?_)
  rw [hpc, kind_update_same hc]

theorem permits_same {c : Pc C} (hpc : s'.pc = Function.update s.pc p c)
    (hc : c.draining = (s.pc p).draining) (hqueued : c.isQueued = (s.pc p).isQueued)
    (htokens : s'.threadQueue = s.threadQueue) : s'.permits = s.permits := by
  unfold State.permits
  rw [drains_same hpc hc, htokens, hpc, headcount_update_same hqueued]

omit [DecidableEq P] in
theorem permits_of_not_drains (h : s.drains = false) : s.permits = s.threadQueue := by
  simp [State.permits, h]

theorem view_move {c : Pc C} (hpc : s'.pc = Function.update s.pc p c)
    (hc : c.draining = (s.pc p).draining) :
    s'.view K = { (s.view K).goto p (c.place K s.drains) with
      shared := s'.shared
      owner := s'.mtx
      permits := s'.permits } := by
  have hplace : (fun q => (s'.pc q).place K s'.drains) =
      Function.update (fun q => (s.pc q).place K s.drains) p (c.place K s.drains) := by
    funext q
    rw [hpc, drains_same hpc hc]
    exact Function.apply_update (fun _ c => Pc.place K s.drains c) s.pc p c q
  unfold State.view Monitors.State.goto
  rw [hplace]

theorem view_same {c : Pc C} (hpc : s'.pc = Function.update s.pc p c)
    (hc : c.draining = (s.pc p).draining) (hpermits : s'.permits = s.permits)
    (hplace : c.place K s.drains = (s.pc p).place K s.drains) (hshared : s'.shared = s.shared)
    (hmtx : s'.mtx = s.mtx) : s'.view K = s.view K := by
  rw [view_move hpc hc, hshared, hmtx, hpermits, hplace]
  simp [Monitors.State.goto, State.view]

/-- Most steps leave the semaphore alone. -/
theorem view_unseen {c : Pc C} (hpc : s'.pc = Function.update s.pc p c)
    (hc : c.draining = (s.pc p).draining) (hqueued : c.isQueued = (s.pc p).isQueued)
    (hplace : c.place K s.drains = (s.pc p).place K s.drains)
    (htokens : s'.threadQueue = s.threadQueue) (hshared : s'.shared = s.shared)
    (hmtx : s'.mtx = s.mtx) :
    Relation.ReflTransGen (Monitors.Step K) (s.view K) (s'.view K) := by
  rw [view_same hpc hc (permits_same hpc hc hqueued htokens) hplace hshared hmtx]

/-- The thread makes a step of the monitor that leaves the permits alone. -/
theorem view_move_next {c : Pc C} (hpc : s'.pc = Function.update s.pc p c)
    (hc : c.draining = (s.pc p).draining) (hpermits : s'.permits = s.permits)
    (hstep : Monitors.next K (s.view K) p = some { (s.view K).goto p (c.place K s.drains) with
      shared := s'.shared
      owner := s'.mtx }) :
    Relation.ReflTransGen (Monitors.Step K) (s.view K) (s'.view K) := by
  refine .single ⟨⟨p, .next⟩, ?_⟩
  rw [view_move hpc hc, hpermits]
  exact hstep

/-- The thread makes a step of the monitor and leaves the semaphore alone. -/
theorem view_next {c : Pc C} (hpc : s'.pc = Function.update s.pc p c)
    (hc : c.draining = (s.pc p).draining) (hqueued : c.isQueued = (s.pc p).isQueued)
    (htokens : s'.threadQueue = s.threadQueue)
    (hstep : Monitors.next K (s.view K) p = some { (s.view K).goto p (c.place K s.drains) with
      shared := s'.shared
      owner := s'.mtx }) :
    Relation.ReflTransGen (Monitors.Step K) (s.view K) (s'.view K) :=
  view_move_next hpc hc (permits_same hpc hc hqueued htokens) hstep

omit [DecidableEq P] in
theorem drains_eq_false (h : s.Invariant K) (hp : (s.pc p).holds K)
    (hd : (s.pc p).draining = false) : s.drains = false :=
  drains_eq_false_iff.mpr (h.locks.not_draining hp hd)

omit [DecidableEq P] [Fintype P] in
theorem Pc.place_wake (c : Pc C) : (c.place K false).wake = c.place K true := by
  cases c with
  | signalLeave waitersPresent => cases waitersPresent <;> rfl
  | _ => rfl

omit [DecidableEq P] [Fintype P] in
theorem Pc.place_of_not_queued {c : Pc C} (hc : c.isQueued = false) :
    c.place K false = c.place K true := by
  cases c with
  | queued => cases hc
  | signalLeave waitersPresent => cases waitersPresent <;> rfl
  | _ => rfl

omit [DecidableEq P] [Fintype P] in
theorem Pc.isWaiting_place {c : Pc C} : (c.place K false).isWaiting = c.isQueued := by
  cases c with
  | signalLeave waitersPresent => cases waitersPresent <;> rfl
  | _ => rfl

omit [DecidableEq P] [Fintype P] in
theorem Pc.place_of_inWait {c : Pc C} (h : c.inWait) (hc : c.isQueued = false) (drains : Bool) :
    ∃ d, c.place K drains = .relocking d := by
  cases c <;> simp_all [Pc.inWait, Pc.isQueued, Pc.place]

omit [DecidableEq P] in
theorem queued_of_waiting {c : C} (h : (s.view K).place p = .waiting c) :
    s.pc p = .queued c ∧ s.drains = false := by
  change (s.pc p).place K s.drains = _ at h
  cases hc : s.pc p <;> rw [hc] at h
  case queued d =>
    cases hdrains : s.drains <;> simp [Pc.place, hdrains] at h
    exact ⟨by rw [h], rfl⟩
  case signalLeave waitersPresent d => cases waitersPresent <;> cases h
  all_goals cases h

omit [DecidableEq P] in
theorem isWaiting_view (h : s.drains = false) (q : P) :
    ((s.view K).place q).isWaiting = (s.pc q).isQueued := by
  change ((s.pc q).place K s.drains).isWaiting = _
  rw [h, Pc.isWaiting_place]

/-! ### The steps that matter to the semaphore -/

/-- A signal gives its permit, one too many if nobody waits any more. -/
theorem posted {c : C} (h : s.Invariant K) (hf : s.Found) (hop : K.op c = .signal)
    (hp : s.pc p = .posting c) :
    Relation.ReflTransGen (Monitors.Step K) (s.view K)
      (State.view K { s.goto p (.at (K.next c)) with threadQueue := s.threadQueue + 1 }) := by
  have hplace : (s.view K).place p = .at c := by simp [State.view, hp, Pc.place]
  have hdrains := drains_eq_false h (p := p) (by simp [hp, Pc.holds]) (by simp [hp, Pc.draining])
  set t : State P σ C := { s.goto p (.at (K.next c)) with threadQueue := s.threadQueue + 1 }
  have hpc : t.pc = Function.update s.pc p (.at (K.next c)) := rfl
  have hdraining : (Pc.at (K.next c)).draining = (s.pc p).draining := by simp [hp, Pc.draining]
  have hpermits : t.permits = (s.view K).permits + 1 :=
    (permits_of_not_drains ((drains_same hpc hdraining).trans hdrains)).trans
      (congrArg (· + 1) (permits_of_not_drains hdrains).symm)
  rw [view_move hpc hdraining, hpermits]
  by_cases hwaiting : ∃ q, ((s.view K).place q).isWaiting
  · refine .single ⟨⟨p, .next⟩, ?_⟩
    simp only [Monitors.step, Monitors.next, hplace, hop, if_pos hwaiting]
    rfl
  · -- the signal found somebody who had been woken before
    obtain ⟨q, hq⟩ := hf p (by simp [hp, Pc.signalling])
    have hqueued : (s.pc q).isQueued = false := by
      by_contra hqueued
      rw [Bool.not_eq_false] at hqueued
      exact hwaiting ⟨q, (isWaiting_view hdrains q).trans hqueued⟩
    obtain ⟨d, hd⟩ := Pc.place_of_inWait (K := K) hq hqueued s.drains
    have hqp : q ≠ p := by
      rintro rfl
      simp [hp, Pc.inWait] at hq
    refine .tail (b := (s.view K).goto p (.at (K.next c))) (.single ⟨⟨p, .next⟩, ?_⟩)
      ⟨⟨q, .stray⟩, ?_⟩
    · simp only [Monitors.step, Monitors.next, hplace, hop, if_neg hwaiting]
      rfl
    · have hstill : ((s.view K).goto p (.at (K.next c))).place q = .relocking d := by
        simp only [Monitors.State.goto, Function.update_of_ne hqp]
        exact hd
      simp only [Monitors.step, hstill]
      rfl

/-- A thread leaves the queue with a permit, or since a broadcast has woken it. -/
theorem queued {c : C} (hpos : 0 < s.threadQueue) (hp : s.pc p = .queued c) :
    Relation.ReflTransGen (Monitors.Step K) (s.view K)
      (State.view K { s.goto p (.wokenEnter c) with threadQueue := s.threadQueue - 1 }) := by
  have hless := s.queued_update p (.wokenEnter c)
  simp only [hp, Pc.isQueued, Bool.toNat_false, Bool.toNat_true, add_zero] at hless
  set t : State P σ C := { s.goto p (.wokenEnter c) with threadQueue := s.threadQueue - 1 }
  have hpc : t.pc = Function.update s.pc p (.wokenEnter c) := rfl
  have hdraining : (Pc.wokenEnter c).draining = (s.pc p).draining := by simp [hp, Pc.draining]
  have hsame := drains_same hpc hdraining
  cases hdrains : s.drains with
  | true =>
    -- the thread takes the token that the broadcast has released for it
    have hpermits : t.permits = s.permits := by
      unfold State.permits
      rw [hsame, hdrains, if_pos rfl, if_pos rfl]
      change s.threadQueue - 1 - headcount Pc.isQueued (Function.update s.pc p _) = _
      omega
    rw [view_same hpc hdraining hpermits (by simp [hp, Pc.place, hdrains]) rfl rfl]
  | false =>
    have hplace : (s.view K).place p = .waiting c := by
      simp [State.view, hp, Pc.place, hdrains]
    have hpermits : (s.view K).permits = s.threadQueue := permits_of_not_drains hdrains
    refine .single ⟨⟨p, .wake⟩, ?_⟩
    rw [view_move hpc hdraining, permits_of_not_drains (hsame.trans hdrains)]
    simp only [Monitors.step, hplace, hpermits, if_pos hpos]
    rfl

omit [DecidableEq P] in
/-- A counted thread that is not queued is on the way out, if somebody else has the mutex. -/
theorem exists_leaving (h : s.Protected K) (hp : (s.pc p).holds K)
    (hout : (s.pc p).counted = false) (hmore : headcount Pc.isQueued s.pc < s.numWaiters) :
    ∃ q ≠ p, ∀ drains, ∃ d, (s.pc q).place K drains = .relocking d := by
  obtain ⟨q, hcounted, hqueued⟩ : ∃ q, (s.pc q).counted ∧ (s.pc q).isQueued = false := by
    by_contra hnone
    push Not at hnone
    rw [h.numWaiters] at hmore
    exact hmore.not_ge (headcount_mono fun q hq => by simpa using hnone q hq)
  refine ⟨q, ?_, Pc.place_of_inWait (h.inWait_of_counted hp hout hcounted) hqueued⟩
  rintro rfl
  rw [hout] at hcounted
  cases hcounted

/-- A broadcast wakes whoever waits, and the semaphore has permits too many for the threads that it
has counted and that do not wait any more. -/
theorem postedAll {c : C} (h : s.Invariant K) (hop : K.op c = .broadcast)
    (hp : s.pc p = .postingAll c) :
    Relation.ReflTransGen (Monitors.Step K) (s.view K)
      (State.view K { s.goto p (.postedAll c) with
        threadQueue := s.threadQueue + s.numWaiters }) := by
  have hplace : (s.view K).place p = .at c := by simp [State.view, hp, Pc.place]
  have hholds : (s.pc p).holds K := by simp [hp, Pc.holds]
  have hdrains := drains_eq_false h hholds (by simp [hp, Pc.draining])
  set t : State P σ C := { s.goto p (.postedAll c) with
    threadQueue := s.threadQueue + s.numWaiters } with ht
  have hdrains' : t.drains = true := decide_eq_true ⟨p, by simp [ht, Pc.draining]⟩
  -- the broadcast itself leaves the permits alone
  have hfirst : Monitors.next K (s.view K) p = some { t.view K with permits := s.threadQueue } := by
    simp only [Monitors.next, hplace, hop]
    have hplaces : Function.update (fun q => ((s.view K).place q).wake) p (.at (K.next c)) =
        (t.view K).place := by
      funext q
      change Function.update (fun q => ((s.pc q).place K s.drains).wake) p (.at (K.next c)) q =
        (Function.update s.pc p (.postedAll c) q).place K t.drains
      rw [hdrains, hdrains']
      simp only [Pc.place_wake]
      exact (Function.apply_update (fun _ c => Pc.place K true c) s.pc p (.postedAll c) q).symm
    rw [hplaces]
    simp [State.view, permits_of_not_drains hdrains, ht, State.goto]
  have hqueues : headcount Pc.isQueued t.pc = headcount Pc.isQueued s.pc :=
    headcount_update_same (by simp [hp, Pc.isQueued])
  have hle := h.locks.queued_le_numWaiters
  have hpermits : (t.view K).permits =
      s.threadQueue + (s.numWaiters - headcount Pc.isQueued s.pc) := by
    change t.permits = _
    unfold State.permits
    rw [hdrains', if_pos rfl, hqueues]
    change s.threadQueue + s.numWaiters - _ = _
    omega
  refine .head ⟨⟨p, .next⟩, hfirst⟩ ?_
  have hgoal : t.view K = { t.view K with
      permits := s.threadQueue + (s.numWaiters - headcount Pc.isQueued s.pc) } := by
    rw [← hpermits]
  rw [hgoal]
  rcases hle.eq_or_lt with hall | hmore
  · rw [hall, Nat.sub_self, Nat.add_zero]
  · obtain ⟨q, hqp, hplaces⟩ := exists_leaving h.locks hholds (by simp [hp, Pc.counted]) hmore
    obtain ⟨d, hd⟩ := hplaces t.drains
    have hstill : (t.view K).place q = .relocking d := by
      change (Function.update s.pc p _ q).place K t.drains = _
      rw [Function.update_of_ne hqp]
      exact hd
    exact Monitors.strays (s := { t.view K with permits := s.threadQueue }) hstill _

/-- Every step of a thread is seen as steps of the monitor. -/
theorem view_step (h : s.Invariant K) (hf : s.Found) (he : Effect K s p s') :
    Relation.ReflTransGen (Monitors.Step K) (s.view K) (s'.view K) := by
  have hplace : (s.view K).place p = (s.pc p).place K s.drains := rfl
  have hbelongs := h.locks.belongs p
  cases he <;> rename_i hp <;> rw [hp] at hplace hbelongs <;>
    simp only [Pc.place, Pc.Belongs] at hplace hbelongs
  case update c f hop =>
    refine view_next rfl (by simp [hp, Pc.draining]) (by simp [hp, Pc.isQueued]) rfl ?_
    simp only [Monitors.next, hplace, hop]
    rfl
  case lock c hfree hop =>
    refine view_next rfl (by simp [hp, Pc.draining]) (by simp [hp, Pc.isQueued]) rfl ?_
    simp only [Monitors.next, hplace, hop]
    exact if_pos hfree
  case unlock c hop =>
    refine view_next rfl (by simp [hp, Pc.draining]) (by simp [hp, Pc.isQueued]) rfl ?_
    simp only [Monitors.next, hplace, hop]
    rfl
  case relocking c hfree =>
    refine view_next rfl (by simp [hp, Pc.draining]) (by simp [hp, Pc.isQueued]) rfl ?_
    simp only [Monitors.next, hplace]
    exact if_pos hfree
  case releasing c =>
    have hdrains := drains_eq_false h (p := p) (by simp [hp, Pc.holds]) (by simp [hp, Pc.draining])
    refine view_move_next rfl (by simp [hp, Pc.draining]) ?_ ?_
    · rw [permits_of_not_drains hdrains, permits_of_not_drains]
      · rfl
      · exact (drains_same (p := p) rfl (by simp [hp, Pc.draining])).trans hdrains
    · simp only [Monitors.next, hplace, hbelongs, Pc.place, hdrains]
      rfl
  case queued c hpos => exact queued hpos hp
  case posted c hmax => exact posted h hf hbelongs hp
  case postedAll c hmax => exact postedAll h hbelongs hp
  case signalTest c =>
    by_cases hpos : 0 < s.numWaiters
    · refine view_unseen (p := p) rfl ?_ ?_ ?_ rfl rfl rfl <;>
        simp [hp, Pc.draining, Pc.isQueued, Pc.place, hpos]
    · have hdrains := drains_eq_false h (p := p) (by simp [hp, Pc.holds])
        (by simp [hp, Pc.draining])
      have hnobody : ¬∃ q, ((s.view K).place q).isWaiting := by
        rintro ⟨q, hq⟩
        rw [isWaiting_view hdrains, h.locks.not_queued (Nat.eq_zero_of_not_pos hpos)] at hq
        cases hq
      refine view_next (p := p) rfl (by simp [hp, Pc.draining]) (by simp [hp, Pc.isQueued]) rfl ?_
      simp only [Monitors.next, hplace, hbelongs, if_neg hnobody, hpos, decide_false, Pc.place]
      rfl
  case nobody c hzero =>
    have hdrains := drains_eq_false h (p := p) (by simp [hp, Pc.holds]) (by simp [hp, Pc.draining])
    have hwake : (fun q => ((s.view K).place q).wake) = (s.view K).place := by
      funext q
      change ((s.pc q).place K s.drains).wake = (s.pc q).place K s.drains
      rw [hdrains, Pc.place_wake, Pc.place_of_not_queued (h.locks.not_queued hzero q)]
    refine view_next rfl (by simp [hp, Pc.draining]) (by simp [hp, Pc.isQueued]) rfl ?_
    simp only [Monitors.next, hplace, hbelongs, hwake]
    rfl
  case awaiting c hevent =>
    have hdrains : s.drains = true := decide_eq_true ⟨p, by simp [hp, Pc.draining]⟩
    have hnew := h.step (.awaiting hevent hp)
    have hdrains' := drains_eq_false hnew (p := p) (by simp [Pc.holds]) (by simp [Pc.draining])
    have hzero := hnew.drained.cleared p (by simp [Pc.isClearing])
    have hnobody : headcount Pc.isQueued s.pc = 0 := headcount_eq_zero.mpr fun q => by
      by_cases hq : q = p
      · simp [hq, hp, Pc.isQueued]
      · simpa [hq] using hnew.locks.not_queued hzero q
    have hsame : State.view K { s.goto p (.clearing c) with allAwakeEvent := false } =
        s.view K := by
      unfold State.view State.permits
      rw [hdrains', hdrains, hnobody]
      congr 1
      funext q
      rw [Pc.place_of_not_queued (hnew.locks.not_queued hzero q)]
      by_cases hq : q = p
      · simp [hq, hp, Pc.place]
      · simp [hq]
    rw [hsame]
  case decremented c lastWaiter =>
    cases lastWaiter <;> refine view_unseen (p := p) rfl ?_ ?_ ?_ rfl rfl rfl <;>
      simp [hp, Pc.draining, Pc.isQueued, Pc.place]
  case signalLeave c waitersPresent =>
    cases waitersPresent <;> refine view_unseen (p := p) rfl ?_ ?_ ?_ rfl rfl rfl <;>
      simp [hp, Pc.draining, Pc.isQueued, Pc.place]
  all_goals
    refine view_unseen (p := p) rfl ?_ ?_ ?_ rfl rfl rfl <;>
      simp [hp, Pc.draining, Pc.isQueued, Pc.place]

theorem refines_monitor (K : Program P σ C) (shared : σ) :
    (system K shared).Refines (fun _ _ => True) (Monitors.Step K)
      (Monitors.system K shared).initial (State.view K) where
  initial := by
    have hdrains : (system K shared).initial.drains = false :=
      drains_eq_false_iff.mpr fun _ => rfl
    unfold State.view
    rw [permits_of_not_drains hdrains]
    rfl
  step := by
    intro s p s' hr _ hs
    exact view_step (invariant_reachable hr) (found_reachable hr) (step_effect hs)

end PFunc.WindowsCond
