import PFunc.InternalBarrier
import PFunc.WindowsBroadcast
import PFunc.WindowsMonitor
import Mathlib.Data.Fintype.Lattice

/-!
# The barrier of the worker threads on Windows

The Windows build has the barrier of the lock and the condition variable, on its own mutex and
condition variable. Through the monitor it is the same cyclic barrier. The semaphore makes a
difference to its size: up to `MAX_COUNT + 1` threads never get stuck, and more, in the build
with exceptions, never pass, since the last to arrive ends in an exception with all locked.
-/

namespace PFunc.WindowsBarrier

open LabelledRuns System Atomics Locks Headcounts Monitors WindowsCond
open CyclicBarrier (Rounds Visits)
open InternalBarrier.Pthread (Barrier phaseAt)

/-- The program points of `operator()`. -/
inductive Point where
  | outside
  | acquiring
  | reading
  | incrementing (myPhase : Bool)
  | comparing (myPhase : Bool)
  | resetting
  | flipping
  | broadcasting
  | unlocking
  /-- under the lock, at the condition of the loop around `cnd.wait` -/
  | checking (myPhase : Bool)
  /-- in the call of `cnd.wait` -/
  | waiting (myPhase : Bool)
  | returning
  deriving DecidableEq

def Point.holds : Point → Bool
  | .outside | .acquiring | .returning => false
  | _ => true

/-- What the lock protects, and the history. -/
structure Shared (size : Word) where
  barrier : Barrier
  rounds : Rounds (Fin size.toNat)

variable {size : Word}

def program (size : Word) : Program (Fin size.toNat) (Shared size) Point where
  start := .outside
  op
    | .outside => .update fun _ x => (x, .acquiring)
    | .acquiring => .lock
    | .reading => .update fun _ x => (x, .incrementing x.barrier.barrierPhase)
    | .incrementing myPhase => .update fun p x =>
      (⟨x.barrier.setCount (x.barrier.barrierCount + 1), x.rounds.arrive p⟩, .comparing myPhase)
    | .comparing myPhase => .update fun _ x =>
      (x, if x.barrier.barrierCount = x.barrier.barrierSize then .resetting
        else .checking myPhase)
    | .resetting => .update fun _ x => (⟨x.barrier.setCount 0, x.rounds.reset⟩, .flipping)
    | .flipping => .update fun p x =>
      (⟨x.barrier.setPhase (!x.barrier.barrierPhase), x.rounds.flip p⟩, .broadcasting)
    | .broadcasting => .broadcast
    | .unlocking => .unlock
    | .checking myPhase => .update fun _ x =>
      (x, if myPhase = x.barrier.barrierPhase then .waiting myPhase else .unlocking)
    | .waiting _ => .wait
    | .returning => .update fun p x => (⟨x.barrier, x.rounds.depart p⟩, .outside)
  next
    | .acquiring => .reading
    | .broadcasting => .unlocking
    | .unlocking => .returning
    | .waiting myPhase => .checking myPhase
    | c => c
  holds := Point.holds
  start_holds := rfl
  update_holds := by
    intro c f h p x
    cases c <;> cases h <;> try rfl
    case comparing => dsimp only; split <;> rfl
    case checking => dsimp only; split <;> rfl
  lock_holds := by
    intro c h
    cases c <;> cases h
    exact ⟨rfl, rfl⟩
  unlock_holds := by
    intro c h
    cases c <;> cases h
    exact ⟨rfl, rfl⟩
  call_holds := by
    intro c h
    cases c <;> first | exact h.elim | exact ⟨rfl, rfl⟩

def start (size : Word) : Shared size where
  barrier := Barrier.initialize .new size
  rounds := .initial

/-- The barrier over the condition variable of the Windows build. -/
def system (size : Word) : System (WindowsCond.State (Fin size.toNat) (Shared size) Point)
    (Fin size.toNat) :=
  WindowsCond.system (program size) (start size)

theorem silent : Silent (program size) := by
  intro c h
  cases c <;> cases h

/-! ### The monitor of the barrier -/

/-- The program point in the barrier over a condition variable. -/
def Point.pc : Point → InternalBarrier.Pthread.Pc
  | .outside => .outside
  | .acquiring => .acquiring
  | .reading => .reading
  | .incrementing myPhase => .incrementing myPhase
  | .comparing myPhase => .comparing myPhase
  | .resetting => .resetting
  | .flipping => .flipping
  | .broadcasting => .broadcasting
  | .unlocking => .unlocking
  | .checking myPhase => .checking myPhase
  | .waiting myPhase => .checking myPhase
  | .returning => .returning

def placePc : Place Point → InternalBarrier.Pthread.Pc
  | .at c => c.pc
  | .waiting (.waiting myPhase) => .asleep myPhase
  | .relocking (.waiting myPhase) => .relocking myPhase
  | _ => .outside

abbrev MonitorState (size : Word) := Monitors.State (Fin size.toNat) (Shared size) Point

def view (x : MonitorState size) : InternalBarrier.Pthread.State size where
  barrier := x.shared.barrier
  lck := x.owner
  pc := fun p => placePc (x.place p)
  rounds := x.shared.rounds

/-- Whoever is about to wait has found the phase unchanged, and it still is. -/
structure Sound (x : MonitorState size) : Prop where
  invariant : x.Invariant (program size)
  phase : ∀ p myPhase, x.place p = .at (.waiting myPhase) →
    myPhase = x.shared.barrier.barrierPhase

variable {x y : MonitorState size} {p : Fin size.toNat}

theorem view_goto (f : Place Point) (shared : Shared size) (owner : Option (Fin size.toNat)) :
    view { x.goto p f with shared := shared, owner := owner } =
      { (view x).goto p (placePc f) with
        barrier := shared.barrier
        lck := owner
        rounds := shared.rounds } := by
  have hpc : (fun q => placePc (Function.update x.place p f q)) =
      Function.update (fun q => placePc (x.place q)) p (placePc f) := by
    funext q
    exact Function.apply_update (fun _ f => placePc f) x.place p f q
  unfold view Monitors.State.goto InternalBarrier.Pthread.State.goto
  dsimp only
  rw [hpc]

theorem placePc_wake (f : Place Point) :
    placePc f.wake = InternalBarrier.Pthread.broadcast (placePc f) := by
  cases f with
  | «at» c => cases c <;> rfl
  | waiting c => cases c <;> rfl
  | relocking c => cases c <;> rfl

theorem phase_update (h : Sound x) {f : Place Point} {shared : Shared size}
    (hf : ∀ m, f = .at (.waiting m) → m = shared.barrier.barrierPhase)
    (hphase : shared.barrier.barrierPhase = x.shared.barrier.barrierPhase) (q : Fin size.toNat)
    (m : Bool) (hq : Function.update x.place p f q = .at (.waiting m)) :
    m = shared.barrier.barrierPhase := by
  by_cases hqp : q = p
  · subst hqp
    rw [Function.update_self] at hq
    exact hf m hq
  · rw [Function.update_of_ne hqp] at hq
    rw [hphase]
    exact h.phase q m hq

theorem phase_next (h : Sound x) (hs : Monitors.next (program size) x p = some y) :
    ∀ q m, y.place q = .at (.waiting m) → m = y.shared.barrier.barrierPhase := by
  have hlock : ∀ c : Point, (∀ m, c ≠ .waiting m) → x.lock p c = some y →
      ∀ q m, y.place q = .at (.waiting m) → m = y.shared.barrier.barrierPhase := by
    intro c hc hs
    unfold Monitors.State.lock at hs
    split at hs
    · cases hs
      exact phase_update h (fun m hm => (hc m (Place.at.inj hm)).elim) rfl
    · cases hs
  unfold Monitors.next at hs
  split at hs
  case h_1 c hp =>
    cases c <;> simp only [program, Option.some.injEq] at hs
    case acquiring => exact hlock .reading (by simp) hs
    case comparing m =>
      subst hs
      refine phase_update h ?_ rfl
      intro m hm
      split at hm <;> cases hm
    case checking m =>
      subst hs
      refine phase_update h ?_ rfl
      intro m' hm
      split at hm <;> cases hm
      assumption
    case flipping =>
      subst hs
      intro q m hq
      by_cases hqp : q = p
      · simp [hqp, Monitors.State.goto] at hq
      · have hplace : x.place q = .at (.waiting m) := by
          simpa [Monitors.State.goto, hqp] using hq
        have hq : (x.place q).holds (program size) := by rw [hplace]; rfl
        have hp : (x.place p).holds (program size) := by rw [hp]; rfl
        exact (hqp (h.invariant.locked.unique hq hp)).elim
    case broadcasting =>
      subst hs
      intro q m hq
      have hwake : ∀ {f : Place Point}, f.wake = .at (.waiting m) → f = .at (.waiting m) := by
        intro f hf
        cases f <;> cases hf
        rfl
      by_cases hqp : q = p
      · simp [hqp] at hq
      · exact h.phase q m (hwake (by simpa [hqp] using hq))
    all_goals
      subst hs
      exact phase_update h (by simp) rfl
  case h_2 => cases hs
  case h_3 c hp =>
    have hbelongs := h.invariant.belongs p
    rw [hp] at hbelongs
    cases c <;> cases hbelongs
    case waiting m => exact hlock (.checking m) (by simp) hs

/-- One step of a thread in the monitor is one step in the barrier, or is not seen. -/
theorem view_next (h : Sound x) (hs : Monitors.next (program size) x p = some y) :
    view y = view x ∨ InternalBarrier.Pthread.next (view x) p = some (view y) := by
  have hpc : (view x).pc p = placePc (x.place p) := rfl
  have hbelongs := h.invariant.belongs p
  unfold Monitors.next at hs
  split at hs
  case h_1 c hp =>
    rw [hp] at hpc
    cases c <;> simp only [program, Monitors.State.lock, Option.some.injEq] at hs
    case acquiring =>
      split at hs
      · rename_i hfree
        cases hs
        right
        simp only [InternalBarrier.Pthread.next, hpc, placePc, Point.pc, view_goto]
        exact if_pos hfree
      · cases hs
    case comparing m =>
      subst hs
      right
      simp only [InternalBarrier.Pthread.next, hpc, placePc, Point.pc, view_goto]
      by_cases hcount : x.shared.barrier.barrierCount = x.shared.barrier.barrierSize
      · have hview : (view x).barrier.barrierCount = (view x).barrier.barrierSize := hcount
        rw [if_pos hcount, if_pos hview]
        rfl
      · have hview : (view x).barrier.barrierCount ≠ (view x).barrier.barrierSize := hcount
        rw [if_neg hcount, if_neg hview]
        rfl
    case broadcasting =>
      subst hs
      right
      have hwake : (fun q => placePc (x.place q).wake) =
          fun q => InternalBarrier.Pthread.broadcast ((view x).pc q) := by
        funext q
        exact placePc_wake _
      have hplace := view_goto (x := { x with place := fun q => (x.place q).wake }) (p := p)
        (.at .unlocking) x.shared x.owner
      simp only [InternalBarrier.Pthread.next, hpc, placePc, Point.pc]
      refine congrArg some (Eq.trans ?_ hplace.symm)
      rw [← hwake]
      rfl
    case checking m =>
      subst hs
      by_cases hphase : m = x.shared.barrier.barrierPhase
      · left
        rw [if_pos hphase, view_goto]
        have hsame : placePc (.at (.waiting m)) = (view x).pc p := hpc.symm
        simp only [InternalBarrier.Pthread.State.goto, hsame, Function.update_eq_self]
        rfl
      · right
        simp only [InternalBarrier.Pthread.next, hpc, placePc, Point.pc, view_goto]
        rw [if_neg hphase]
        exact if_neg hphase
    case waiting m =>
      subst hs
      right
      have hphase := h.phase p m hp
      simp only [InternalBarrier.Pthread.next, hpc, placePc, Point.pc, view_goto]
      exact if_pos hphase
    all_goals
      subst hs
      right
      simp only [InternalBarrier.Pthread.next, hpc, placePc, Point.pc, view_goto]
      rfl
  case h_2 => cases hs
  case h_3 c hp =>
    rw [hp] at hpc hbelongs
    cases c <;> cases hbelongs
    unfold Monitors.State.lock at hs
    split at hs
    · rename_i hfree
      cases hs
      right
      simp only [InternalBarrier.Pthread.next, hpc, placePc, view_goto]
      exact if_pos hfree
    · cases hs

theorem sound_step (h : Sound x) (hs : Monitors.Step (program size) x y) : Sound y := by
  refine ⟨h.invariant.step hs, ?_⟩
  obtain ⟨l, hs⟩ := hs
  unfold Monitors.step at hs
  split at hs
  · exact phase_next h hs
  · split at hs
    · cases hs
      exact phase_update h (by simp) rfl
    · cases hs
  · cases hs
  · cases hs
    exact h.phase
  · cases hs

theorem view_step (h : Sound x) (hs : Monitors.Step (program size) x y) :
    Relation.ReflTransGen (fun a b => ∃ l, InternalBarrier.Pthread.step a l = some b)
      (view x) (view y) := by
  obtain ⟨l, hs⟩ := hs
  unfold Monitors.step at hs
  split at hs
  · rcases view_next h hs with heq | hnext
    · rw [heq]
    · exact .single ⟨⟨l.party, .next⟩, hnext⟩
  · rename_i c _ hp
    split at hs
    · cases hs
      have hbelongs := h.invariant.belongs l.party
      rw [hp] at hbelongs
      cases c <;> cases hbelongs
      rename_i m
      have hpc : (view x).pc l.party = placePc (x.place l.party) := rfl
      rw [hp] at hpc
      refine .single ⟨⟨l.party, .spurious⟩, ?_⟩
      have hview := view_goto (x := x) (p := l.party) (.relocking (.waiting m)) x.shared x.owner
      simp only [InternalBarrier.Pthread.step, hpc, placePc]
      exact congrArg some hview.symm
    · cases hs
  · cases hs
  · cases hs
    exact .refl
  · cases hs

/-! ### The Windows build -/

theorem sound_initial (size : Word) :
    Sound (Monitors.system (program size) (start size)).initial := by
  refine ⟨invariant_initial _, ?_⟩
  intro p m hp
  cases hp

/-- The barrier over the condition variable of the Windows build is the one over an abstract
condition variable. -/
theorem refines_pthread (size : Word) :
    (system size).Refines (fun _ _ => True)
      (fun a b => ∃ l, InternalBarrier.Pthread.step a l = some b)
      (InternalBarrier.Pthread.system size).initial
      fun s => view (State.view (program size) s) :=
  (refines_monitor (program size) (start size)).trans view (J := Sound) (sound_initial size)
    (fun _ _ h hs => sound_step h hs) rfl fun _ _ h hs => view_step h hs

theorem barrier_invariant {s : WindowsCond.State (Fin size.toNat) (Shared size) Point}
    (hr : (system size).Reachable (fun _ _ => True) s) :
    (view (State.view (program size) s)).Invariant :=
  (refines_pthread size).invariant (InternalBarrier.Pthread.invariant_initial size)
    (fun _ _ h hs => (InternalBarrier.Pthread.step_invariant h hs.choose_spec).1) hr

theorem refines_visits (size : Word) :
    (system size).Refines (fun _ _ => True) Visits.Step .initial
      (fun s => s.shared.rounds.toVisits) :=
  (refines_pthread size).trans (fun x => x.rounds.toVisits)
    (J := InternalBarrier.Pthread.State.Invariant) (InternalBarrier.Pthread.invariant_initial size)
    (fun _ _ h hs => (InternalBarrier.Pthread.step_invariant h hs.choose_spec).1) rfl
    (fun _ _ h hs => (h.sense.moves InternalBarrier.Pthread.phaseAt_succ
      (InternalBarrier.Pthread.step_invariant h hs.choose_spec).2).2)

/-- On Windows too the barrier is a cyclic barrier: nobody returns from a round that somebody has
not entered. -/
theorem cyclic_on_windows (size : Word) :
    (system size).Refines (fun _ _ => True) Visits.Step .initial
        (fun s => s.shared.rounds.toVisits) ∧
      ∀ s, (system size).Reachable (fun _ _ => True) s →
        ∀ p q, s.shared.rounds.left p ≤ s.shared.rounds.entered q :=
  ⟨refines_visits size, fun _ hr => (barrier_invariant hr).sense.rounds.left_le_entered⟩

abbrev State (size : Word) := WindowsCond.State (Fin size.toNat) (Shared size) Point

variable {s s' : State size}

/-- A thread in the queue, while no broadcast drains it, sleeps in the barrier. -/
theorem asleep_of_queued (hr : (system size).Reachable (fun _ _ => True) s)
    (hdrains : s.drains = false) (hp : (s.pc p).isQueued) :
    ∃ m, (view (WindowsCond.State.view (program size) s)).pc p = .asleep m := by
  have hbelongs := (WindowsCond.invariant_reachable hr).locks.belongs p
  cases hc : s.pc p <;> simp [hc, Pc.isQueued] at hp
  rename_i c
  rw [hc] at hbelongs
  cases c <;> cases hbelongs
  rename_i m
  refine ⟨m, ?_⟩
  simp [view, WindowsCond.State.view, hc, Pc.place, hdrains, placePc]

/-- Up to `MAX_COUNT + 1` threads are never stuck in the barrier. -/
theorem barrier_live (hpos : 0 < size.toNat) (hle : size.toNat ≤ maxCount + 1)
    (hr : (system size).Reachable (fun _ _ => True) s) :
    ∃ p, (WindowsCond.step (program size) s p).isSome := by
  by_contra hstuck
  have hnone : ∀ p, WindowsCond.step (program size) s p = none := by
    intro p
    by_contra hp
    exact hstuck ⟨p, Option.isSome_iff_ne_none.mpr hp⟩
  have hthrown := not_thrown silent (by simpa using hle) hr
  have hqueued := queued_of_stuck hr hthrown hnone
  have hdrains : s.drains = false := by
    refine drains_eq_false_iff.mpr fun p => ?_
    have hp := hqueued p
    cases hc : s.pc p <;> simp [hc, Pc.isQueued, Pc.draining] at hp ⊢
  have hasleep := fun p => asleep_of_queued (p := p) hr hdrains (hqueued p)
  -- a sleeper of the earliest round waits for somebody who is about to wake it
  have : Nonempty (Fin size.toNat) := ⟨⟨0, hpos⟩⟩
  obtain ⟨p, hp⟩ := Finite.exists_min s.shared.rounds.entered
  obtain ⟨m, hm⟩ := hasleep p
  obtain ⟨q, hq, -⟩ := (barrier_invariant hr).pending hm hp
  obtain ⟨m', hm'⟩ := hasleep q
  simp [InternalBarrier.Pthread.State.WakePending, hm'] at hq

/-- Thread 0 is in the queue. -/
theorem barrier_live_two :
    ∃ p, (WindowsCond.step (program 2)
      ((system 2).final (List.replicate 11 ⟨0, by decide⟩)) p).isSome :=
  barrier_live (by decide) (by decide) (reachable_final (by decide))

/-! ### More threads than the semaphore can let out -/

/-- Whether a thread at the point has been counted in the round. -/
def Point.arrived : Point → Bool
  | .outside | .acquiring | .reading | .incrementing _ => false
  | _ => true

/-- The program point, or that of the call. -/
def point : Pc Point → Point
  | .at c | .waitEnter c | .incrementing c | .incremented c | .releasing c | .queued c
  | .wokenEnter c | .decrementing c | .decremented _ c | .lastOut c | .relocking c
  | .signalEnter c | .signalTest c | .signalLeave _ c | .posting c | .broadcastEnter c
  | .broadcastTest c | .broadcastLeave c | .marking c | .postingAll c | .postedAll c
  | .awaiting c | .clearing c | .thrown _ c => c

def hasArrived (c : Pc Point) : Bool := (point c).arrived

/-- Where threads are in the first round, until all have arrived. -/
def isEarly : Pc Point → Bool
  | .at .outside | .at .acquiring | .at .reading | .at (.incrementing true)
  | .at (.comparing true) | .at .resetting | .at (.checking true) | .at (.waiting true)
  | .waitEnter (.waiting true) | .incrementing (.waiting true) | .incremented (.waiting true)
  | .releasing (.waiting true) | .queued (.waiting true) => true
  | _ => false

/-- Where the last to arrive is then, up to its failed broadcast. -/
def isLate : Pc Point → Bool
  | .at .flipping | .at .broadcasting | .broadcastEnter .broadcasting
  | .broadcastTest .broadcasting | .marking .broadcasting | .postingAll .broadcasting
  | .thrown true .broadcasting => true
  | _ => false

structure Open (s : State size) : Prop where
  early : ∀ p, isEarly (s.pc p)
  barrierSize : s.shared.barrier.barrierSize = size
  phase : s.shared.barrier.barrierPhase = true
  count : s.shared.barrier.barrierCount.toNat = headcount hasArrived s.pc
  full : ∀ p, s.pc p = .at .resetting → s.shared.barrier.barrierCount = size

/-- All but `p` are in the queue. -/
structure Closing (p : Fin size.toNat) (s : State size) : Prop where
  late : isLate (s.pc p)
  queued : ∀ q, q ≠ p → s.pc q = .queued (.waiting true)

def NobodyLeft (s : State size) : Prop :=
  (Open s ∨ ∃ p, Closing p s) ∧ ∀ q, s.shared.rounds.left q = 0

theorem not_draining_of_early {c : Pc Point} (h : isEarly c) : c.draining = false := by
  cases c <;> first | rfl | cases h

/-- At the reset everybody else is in the queue. -/
theorem Open.close (h : Open s) (hinv : s.Invariant (program size)) (hp : s.pc p = .at .resetting) :
    ∀ q, q ≠ p → s.pc q = .queued (.waiting true) := by
  intro q hq
  have hearly := h.early q
  have hall : hasArrived (s.pc q) = true := by
    by_contra hnot
    rw [Bool.not_eq_true] at hnot
    have hlt := headcount_lt_card hnot
    have hcount := h.count
    rw [h.full p hp, Fintype.card_fin] at *
    omega
  have hout : (s.pc q).holds (program size) = false := by
    by_contra hholds
    rw [Bool.not_eq_false] at hholds
    exact hq (hinv.locks.mtx.unique hholds (by rw [hp]; rfl))
  unfold isEarly at hearly
  split at hearly
  case h_14 => cases hearly
  case h_13 hc => exact hc
  all_goals
    rename_i hc
    rw [hc] at hall hout
    first | exact absurd hall Bool.false_ne_true | exact absurd hout.symm Bool.false_ne_true

theorem Open.move (h : Open s) {c : Pc Point} (hpc : s'.pc = Function.update s.pc p c)
    (hearly : isEarly c) (hshared : s'.shared.barrier = s.shared.barrier)
    (harrived : hasArrived c = hasArrived (s.pc p))
    (hfull : c = .at .resetting → s.shared.barrier.barrierCount = size) : Open s' where
  early := by
    intro q
    rw [hpc]
    by_cases hq : q = p
    · simpa [hq] using hearly
    · simpa [hq] using h.early q
  barrierSize := hshared ▸ h.barrierSize
  phase := hshared ▸ h.phase
  count := by
    rw [hshared, hpc, headcount_update_same harrived]
    exact h.count
  full := by
    intro q hq
    rw [hshared]
    rw [hpc] at hq
    by_cases hqp : q = p
    · subst hqp
      exact hfull (by simpa using hq)
    · exact h.full q (by simpa [hqp] using hq)

/-- One more arrives. -/
theorem Open.arrive (h : Open s) (hinv : s.Invariant (program size))
    (hp : s.pc p = .at (.incrementing true)) :
    Open { s.goto p (.at (.comparing true)) with
      shared := ⟨s.shared.barrier.setCount (s.shared.barrier.barrierCount + 1),
        s.shared.rounds.arrive p⟩ } where
  early := by
    intro q
    by_cases hq : q = p
    · simp [hq, isEarly]
    · simpa [hq] using h.early q
  barrierSize := h.barrierSize
  phase := h.phase
  count := by
    have hupdate := headcount_update hasArrived s.pc p (.at (.comparing true))
    have haway : hasArrived (s.pc p) = false := by
      rw [hp]
      rfl
    have hlt := headcount_lt_card haway
    have hcount := h.count
    have hword := size.isLt
    rw [hp] at hupdate
    rw [Fintype.card_fin] at hlt
    change (s.shared.barrier.barrierCount + 1).toNat = headcount hasArrived (Function.update s.pc p _)
    simp only [hasArrived, point, Point.arrived, Bool.toNat_false, Bool.toNat_true, add_zero] at hupdate
    have hone : (s.shared.barrier.barrierCount + 1).toNat =
        s.shared.barrier.barrierCount.toNat + 1 := by bv_omega
    omega
  full := by
    intro q hq
    by_cases hqp : q = p
    · simp [hqp] at hq
    · have hqr : s.pc q = .at .resetting := by simpa [hqp] using hq
      have hheld : (s.pc q).holds (program size) := by rw [hqr]; rfl
      exact (hqp (hinv.locks.mtx.unique hheld (by rw [hp]; rfl))).elim

theorem Open.step (h : Open s) (hr : (system size).Reachable (fun _ _ => True) s)
    (hs : WindowsCond.step (program size) s p = some s') (hleft : ∀ q, s.shared.rounds.left q = 0) :
    NobodyLeft s' := by
  have hinv := WindowsCond.invariant_reachable hr
  have hearly := h.early p
  unfold isEarly at hearly
  split at hearly <;> rename_i hp
  case h_14 => cases hearly
  all_goals simp only [WindowsCond.step, hp, program, Option.some.injEq] at hs
  case h_2 =>
    obtain ⟨-, rfl⟩ := WindowsCond.of_lock hs
    exact ⟨.inl (h.move (p := p) rfl rfl rfl (by rw [hp]; rfl) (by simp)), hleft⟩
  case h_3 =>
    subst hs
    have hread : isEarly (.at (.incrementing s.shared.barrier.barrierPhase)) := by rw [h.phase]; rfl
    exact ⟨.inl (h.move (p := p) rfl hread rfl (by rw [hp]; rfl) (by simp)), hleft⟩
  case h_4 =>
    subst hs
    exact ⟨.inl (h.arrive hinv hp), hleft⟩
  case h_5 =>
    subst hs
    by_cases hcount : s.shared.barrier.barrierCount = s.shared.barrier.barrierSize
    · rw [if_pos hcount]
      exact ⟨.inl (h.move (p := p) rfl rfl rfl (by rw [hp]; rfl)
        fun _ => hcount.trans h.barrierSize), hleft⟩
    · rw [if_neg hcount]
      exact ⟨.inl (h.move (p := p) rfl rfl rfl (by rw [hp]; rfl) (by simp)), hleft⟩
  case h_6 =>
    subst hs
    refine ⟨.inr ⟨p, ?_, ?_⟩, hleft⟩
    · simp [isLate]
    · intro q hq
      simpa [hq] using h.close hinv hp q hq
  case h_7 =>
    subst hs
    rw [if_pos h.phase.symm]
    exact ⟨.inl (h.move (p := p) rfl rfl rfl (by rw [hp]; rfl) (by simp)), hleft⟩
  case h_9 =>
    obtain ⟨-, rfl⟩ := WindowsCond.of_enter hs
    exact ⟨.inl (h.move (p := p) rfl rfl rfl (by rw [hp]; rfl) (by simp)), hleft⟩
  case h_13 =>
    have hempty := ((thrifty_reachable silent hr).rest fun q =>
      not_draining_of_early (h.early q)).1
    simp [hempty] at hs
  all_goals
    subst hs
    exact ⟨.inl (h.move (p := p) rfl rfl rfl (by rw [hp]; rfl) (by simp)), hleft⟩

theorem late_spec (size : Word) {c : Pc Point} (h : isLate c) :
    c.draining = false ∧ c.holds (program size) = true ∧ c.counted = false := by
  unfold isLate at h
  split at h
  case h_8 => cases h
  all_goals exact ⟨rfl, rfl, rfl⟩

/-- The last to arrive finds everybody else in the queue, more than it can wake. -/
theorem Closing.step (h : Closing p s) (hlarge : maxCount + 1 < size.toNat)
    (hr : (system size).Reachable (fun _ _ => True) s) {q : Fin size.toNat}
    (hs : WindowsCond.step (program size) s q = some s')
    (hleft : ∀ q, s.shared.rounds.left q = 0) : NobodyLeft s' := by
  have hinv := WindowsCond.invariant_reachable hr
  have hlate := h.late
  obtain ⟨hpd, hholds, hcounted⟩ := late_spec size hlate
  have hempty := ((thrifty_reachable silent hr).rest (hinv.locks.not_draining hholds hpd)).1
  have hqp : q = p := by
    by_contra hqp
    simp [WindowsCond.step, h.queued q hqp, hempty] at hs
  subst hqp
  have hwaiters : s.numWaiters + 1 = size.toNat := by
    have hothers := headcount_add_one hcounted (fun r hr => by rw [h.queued r hr]; rfl)
      (c := .queued (.waiting true)) rfl
    rw [hinv.locks.numWaiters, hothers, Fintype.card_fin]
  have hmove : ∀ {t : State size} {c : Pc Point}, t.pc = Function.update s.pc q c → isLate c →
      t.shared.rounds.left = s.shared.rounds.left → NobodyLeft t := by
    intro t c hpc hc hrounds
    refine ⟨.inr ⟨q, ?_, fun r hr => ?_⟩, fun r => hrounds ▸ hleft r⟩
    · rw [hpc, Function.update_self]
      exact hc
    · rw [hpc, Function.update_of_ne hr]
      exact h.queued r hr
  unfold isLate at hlate
  split at hlate <;> rename_i hp
  case h_8 => cases hlate
  all_goals simp only [WindowsCond.step, hp, program, Option.some.injEq, reduceCtorEq] at hs
  case h_3 =>
    obtain ⟨-, rfl⟩ := WindowsCond.of_enter hs
    exact hmove rfl rfl rfl
  case h_4 =>
    subst hs
    rw [if_pos (by omega)]
    exact hmove rfl rfl rfl
  case h_6 =>
    subst hs
    unfold WindowsCond.State.release
    rw [if_neg (by omega)]
    exact hmove rfl rfl rfl
  all_goals
    subst hs
    exact hmove rfl rfl rfl

theorem nobodyLeft_reachable (hlarge : maxCount + 1 < size.toNat)
    (hr : (system size).Reachable (fun _ _ => True) s) : NobodyLeft s := by
  apply hr.invariant' (I := NobodyLeft)
  · refine ⟨.inl ⟨fun _ => rfl, rfl, rfl, ?_, fun _ hp => (by cases hp)⟩, fun _ => rfl⟩
    exact (headcount_eq_zero.mpr fun _ => rfl).symm
  · intro s q s' hr hn _ hs
    obtain ⟨hopen | ⟨p, hclosing⟩, hleft⟩ := hn
    · exact hopen.step hr hs hleft
    · exact hclosing.step hlarge hr hs hleft

/-- With more threads than `MAX_COUNT + 1` nobody ever returns from the barrier in the build with
exceptions: the broadcast of the last to arrive throws and ends its thread. -/
theorem nobody_leaves (hlarge : maxCount + 1 < size.toNat)
    (hr : (system size).Reachable (fun _ _ => True) s) : ∀ p, s.shared.rounds.left p = 0 :=
  (nobodyLeft_reachable hlarge hr).2

theorem nobody_leaves_large :
    let s := (system 1026).final (List.replicate 5 ⟨0, by decide⟩)
    s.shared.rounds.entered ⟨0, by decide⟩ = 1 ∧ ∀ p, s.shared.rounds.left p = 0 :=
  ⟨by decide, nobody_leaves (by decide) (reachable_final (by decide))⟩

end PFunc.WindowsBarrier
