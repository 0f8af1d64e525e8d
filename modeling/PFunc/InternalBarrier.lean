import PFunc.Atomics
import PFunc.CyclicBarrier
import PFunc.Locks
import Mathlib.Data.Nat.Bits

/-!
# The barrier of the worker threads

Both builds of `pfunc::detail::barrier` for `size` threads after `initialize`. In the
futex build `futex_wait` sleeps only while the word has the expected value, and may return
spuriously; in the other one the lock is exclusive, and waiting on the condition variable
releases it at once and may end spuriously. Either way all sleepers are woken together.
-/

namespace PFunc.InternalBarrier

open LabelledRuns Atomics CyclicBarrier Locks

inductive Act where
  /-- the call of the barrier, or the next step inside -/
  | next
  /-- a sleeper wakes although nobody woke it -/
  | spurious
  deriving DecidableEq

structure Label (size : Word) where
  thread : Fin size.toNat
  act : Act
  deriving DecidableEq

namespace Futex

def maxRelaxations : ℕ := 2000000

inductive Pc where
  | outside
  | decrementing (myPhase : Word)
  | resetting
  | flipping
  | waking
  | checking (myPhase : Word)
  | spinning (myPhase : Word) (i : ℕ)
  /-- about to call `futex_wait` -/
  | waiting (myPhase : Word)
  | asleep (myPhase : Word)
  | returning
  deriving DecidableEq

structure Barrier where
  barrierSize : Word
  barrierPhase : Word
  barrierCount : Word

def Barrier.new : Barrier := ⟨0, 0, 0⟩

def Barrier.initialize (b : Barrier) (size : Word) : Barrier :=
  { b with barrierSize := size, barrierCount := size }

def Barrier.setCount (b : Barrier) (count : Word) : Barrier := { b with barrierCount := count }

def Barrier.setPhase (b : Barrier) (phase : Word) : Barrier := { b with barrierPhase := phase }

@[simp] theorem Barrier.setCount_barrierSize (b : Barrier) (count : Word) :
    (b.setCount count).barrierSize = b.barrierSize := rfl

@[simp] theorem Barrier.setCount_barrierCount (b : Barrier) (count : Word) :
    (b.setCount count).barrierCount = count := rfl

structure State (size : Word) where
  barrier : Barrier
  pc : Fin size.toNat → Pc
  rounds : Rounds (Fin size.toNat)

variable {size : Word}

def State.goto (s : State size) (p : Fin size.toNat) (c : Pc) : State size :=
  { s with pc := Function.update s.pc p c }

/-- `futex_wake (&barrier_phase, INT_MAX)` -/
def wake : Pc → Pc
  | .asleep myPhase => .checking myPhase
  | c => c

def next (s : State size) (p : Fin size.toNat) : Option (State size) :=
  match s.pc p with
  | .outside => some (s.goto p (.decrementing s.barrier.barrierPhase))
  | .decrementing myPhase =>
    let r := fetchAndAdd s.barrier.barrierCount (-1)
    some { s.goto p (if 1 = r.2 then .resetting else .checking myPhase) with
      barrier := s.barrier.setCount r.1
      rounds := s.rounds.arrive p }
  | .resetting =>
    some { s.goto p .flipping with
      barrier := s.barrier.setCount s.barrier.barrierSize
      rounds := s.rounds.reset }
  | .flipping =>
    some { s.goto p .waking with
      barrier := s.barrier.setPhase (~~~s.barrier.barrierPhase)
      rounds := s.rounds.flip p }
  | .waking => some { s with pc := Function.update (fun q => wake (s.pc q)) p .returning }
  | .checking myPhase =>
    some (s.goto p (if s.barrier.barrierPhase = myPhase then .spinning myPhase 0 else .returning))
  | .spinning myPhase i =>
    some (s.goto p (if i < maxRelaxations ∧ myPhase = s.barrier.barrierPhase then
      .spinning myPhase (i + 1) else .waiting myPhase))
  | .waiting myPhase =>
    some (s.goto p (if s.barrier.barrierPhase = myPhase then .asleep myPhase
      else .checking myPhase))
  | .asleep _ => none
  | .returning => some { s.goto p .outside with rounds := s.rounds.depart p }

def step (s : State size) (l : Label size) : Option (State size) :=
  match l.act, s.pc l.thread with
  | .next, _ => next s l.thread
  | .spurious, .asleep myPhase => some (s.goto l.thread (.checking myPhase))
  | .spurious, _ => none

def system (size : Word) : System (State size) (Label size) where
  initial :=
    { barrier := Barrier.initialize .new size
      pc := fun _ => .outside
      rounds := .initial }
  step := step

/-! ### The counter and the phase as a cyclic barrier -/

def Pc.place : Pc → Place Word
  | .outside => .outside
  | .decrementing myPhase => .reading myPhase
  | .resetting => .resetting
  | .flipping => .flipping
  | .waking => .released
  | .checking myPhase => .waiting myPhase
  | .spinning myPhase _ => .waiting myPhase
  | .waiting myPhase => .waiting myPhase
  | .asleep myPhase => .waiting myPhase
  | .returning => .released

theorem Pc.eq_flipping {c : Pc} (h : c.place = .flipping) : c = .flipping := by
  cases c <;> first | rfl | cases h

/-- The last to arrive, until it has woken the others. -/
def Pc.wakePending : Pc → Bool
  | .resetting => true
  | .flipping => true
  | .waking => true
  | _ => false

/-- The counter counts down from `size`. -/
def State.sense (s : State size) : Sense (Fin size.toNat) Word :=
  .ofPc Pc.place (size.toNat - s.barrier.barrierCount.toNat) s.barrier.barrierPhase s.pc s.rounds

/-- The phase after `k` flips. -/
def phaseAt (k : ℕ) : Word := if k.bodd then ~~~0 else 0

theorem phaseAt_succ (k : ℕ) : phaseAt (k + 1) = ~~~phaseAt k := by
  unfold phaseAt
  rw [Nat.bodd_succ]
  cases k.bodd <;> rfl

theorem phaseAt_succ_ne (k : ℕ) : phaseAt (k + 1) ≠ phaseAt k := by
  unfold phaseAt
  rw [Nat.bodd_succ]
  cases k.bodd <;> decide

def Pc.sleeps : Pc → Bool
  | .asleep _ => true
  | _ => false

@[simp] theorem wake_place (c : Pc) : (wake c).place = c.place := by
  cases c <;> rfl

/-- What threads see of the rounds, the counter and the sleepers. -/
structure State.Cyclic (s : State size) : Prop where
  left_le : ∀ p q, s.rounds.left p ≤ s.rounds.entered q
  /-- what is left of the counter for whoever may enter its next round -/
  count : ∀ p, s.pc p = .outside → s.barrier.barrierCount.toNat +
    (Finset.univ.filter fun q => s.rounds.entered q = s.rounds.left p + 1).card = size.toNat
  asleep : ∀ p m, s.pc p = .asleep m → (∀ q, s.rounds.entered p ≤ s.rounds.entered q) →
    ∃ q, (s.pc q).wakePending ∧ s.rounds.entered q = s.rounds.entered p

structure State.Invariant (s : State size) : Prop where
  barrierSize : s.barrier.barrierSize = size
  count_le : s.barrier.barrierCount.toNat ≤ size.toNat
  sense : s.sense.Invariant phaseAt
  /-- whoever takes the counter to zero goes on to reset it -/
  full : 0 < size.toNat → s.barrier.barrierCount = 0 → ∃ p, s.pc p = .resetting
  attended : Attended (fun c => Pc.sleeps c) (· = .waking) s.pc s.rounds

namespace State.Invariant

variable {s s' : State size} (h : s.Invariant) {p : Fin size.toNat}

include h

theorem count_pos {m : Word} (hp : s.pc p = .decrementing m) : 0 < s.barrier.barrierCount.toNat := by
  have hplaced := h.sense.placed p
  have hplace : s.sense.place p = .reading m := congrArg Pc.place hp
  rw [hplace] at hplaced
  have hcard := Finset.card_le_univ (s.rounds.arrive p).arrived
  have harrive : (s.rounds.arrive p).arrived.card = s.rounds.arrived.card + 1 :=
    h.sense.rounds.card_arrived_arrive hplaced.1
  have hcount : size.toNat - s.barrier.barrierCount.toNat = s.rounds.arrived.card := h.sense.count
  rw [harrive, Fintype.card_fin] at hcard
  omega

theorem count_decremented {m : Word} (hp : s.pc p = .decrementing m) :
    size.toNat - (fetchAndAdd s.barrier.barrierCount (-1)).1.toNat =
      size.toNat - s.barrier.barrierCount.toNat + 1 := by
  have hpos := h.count_pos hp
  have := h.count_le
  rw [toNat_decrement hpos]
  omega

theorem next_moves (hs : next s p = some s') :
    Relation.ReflTransGen (Sense.Move fun m => ~~~m) s.sense s'.sense := by
  have stay : ∀ {c : Pc}, c.place = (s.pc p).place →
      Relation.ReflTransGen (Sense.Move fun m => ~~~m) s.sense (s.goto p c).sense := by
    intro c hc
    rw [show (s.goto p c).sense = s.sense from Sense.ofPc_update_same _ _ _ hc]
  have hplace : s.sense.place p = (s.pc p).place := rfl
  unfold next at hs
  split at hs <;> rename_i hpc <;> rw [hpc] at stay hplace <;>
    simp only [Option.some.injEq, reduceCtorEq] at hs <;> subst hs
  case h_1 => exact Sense.moves_update _ rfl (.read _ p hplace)
  case h_2 m =>
    have hcount := h.count_decremented hpc
    split <;> rename_i hlast
    · change Relation.ReflTransGen _ _ (Sense.ofPc _ _ _ (Function.update _ _ _) _)
      rw [Sense.ofPc_update, Barrier.setCount_barrierCount, hcount]
      refine h.sense.arrive_elect hplace ?_
      have hone : s.barrier.barrierCount = 1 := hlast.symm
      have hle := h.count_le
      change size.toNat - s.barrier.barrierCount.toNat + 1 = _
      rw [hone] at hle ⊢
      rw [Fintype.card_fin]
      exact Nat.sub_add_cancel hle
    · refine Sense.moves_update _ rfl ?_
      rw [Barrier.setCount_barrierCount, hcount]
      exact .arrive _ p m hplace
  case h_3 =>
    refine Sense.moves_update _ rfl ?_
    rw [Barrier.setCount_barrierCount, h.barrierSize, Nat.sub_self]
    exact .reset _ p hplace
  case h_4 => exact Sense.moves_update _ rfl (.flip _ p hplace)
  case h_5 =>
    refine (congrArg _ ?_).mp (stay (c := .returning) rfl)
    unfold State.sense Sense.ofPc
    congr 1
    funext q
    by_cases hq : q = p
    · subst hq
      simp [State.goto]
    · simp [State.goto, hq]
  case h_6 m =>
    split <;> rename_i hphase
    · exact stay rfl
    · exact Sense.moves_update _ rfl (.release _ p m hplace fun hm => hphase hm.symm)
  case h_7 m i =>
    apply stay
    split <;> rfl
  case h_8 m =>
    apply stay
    split <;> rfl
  case h_10 => exact Sense.moves_update _ rfl (.depart _ p hplace)

theorem count_next (hs : next s p = some s') :
    s'.barrier.barrierSize = size ∧ s'.barrier.barrierCount.toNat ≤ size.toNat := by
  have hsize := h.barrierSize
  have hle := h.count_le
  unfold next at hs
  split at hs <;> rename_i hpc <;>
    simp only [Option.some.injEq, reduceCtorEq] at hs <;> subst hs
  case h_2 m =>
    have hpos := h.count_pos hpc
    have hcount := toNat_decrement hpos
    constructor
    · exact (Barrier.setCount_barrierSize _ _).trans hsize
    · rw [Barrier.setCount_barrierCount]
      omega
  case h_3 => exact ⟨hsize, by simp [hsize]⟩
  all_goals exact ⟨hsize, hle⟩

theorem full_next (hs : next s p = some s') (hzero : s'.barrier.barrierCount = 0) :
    ∃ q, s'.pc q = .resetting := by
  have keep : ∀ {c : Pc}, s.pc p ≠ .resetting → s.barrier.barrierCount = 0 →
      ∃ q, Function.update s.pc p c q = .resetting := by
    intro c hp hcount
    obtain ⟨q, hq⟩ := h.full p.pos hcount
    have hqp : q ≠ p := by
      rintro rfl
      exact hp hq
    exact ⟨q, by rw [Function.update_of_ne hqp]; exact hq⟩
  unfold next at hs
  split at hs <;> rename_i hpc <;>
    simp only [Option.some.injEq, reduceCtorEq] at hs <;> subst hs
  case h_2 m =>
    have hone : s.barrier.barrierCount = 1 := by
      have hpos := h.count_pos hpc
      rw [Barrier.setCount_barrierCount] at hzero
      simp only [fetchAndAdd] at hzero
      bv_omega
    exact ⟨p, by simp [State.goto, hone, fetchAndAdd]⟩
  case h_3 =>
    have hpos := p.pos
    have hsize := h.barrierSize.symm.trans hzero
    simp [hsize] at hpos
  case h_5 =>
    obtain ⟨q, hq⟩ := keep (c := .returning) (by simp [hpc]) hzero
    refine ⟨q, ?_⟩
    by_cases hqp : q = p
    · simp [hqp] at hq
    · simp [hqp] at hq ⊢
      simp [hq, wake]
  all_goals exact keep (by simp [hpc]) hzero

theorem attended_next (hs : next s p = some s') :
    Attended (fun c => Pc.sleeps c) (· = .waking) s'.pc s'.rounds := by
  have hatt := h.attended
  unfold next at hs
  split at hs <;> rename_i hpc <;>
    simp only [Option.some.injEq, reduceCtorEq] at hs <;> subst hs
  case h_2 m =>
    refine hatt.keep (by simp [hpc]) ?_ rfl ?_
    · split <;> simp [Pc.sleeps]
    · intro q hq
      simp [Rounds.arrive, Visits.enter, hq]
  case h_4 =>
    have hplace : s.sense.place p = .flipping := congrArg Pc.place hpc
    exact hatt.flip h.sense.rounds (by simp [hpc]) rfl (by simp [Pc.sleeps])
      (h.sense.entered_of_flipping hplace)
  case h_5 =>
    intro q hq
    by_cases hqp : q = p
    · simp [hqp, Pc.sleeps] at hq
    · simp only [Function.update_of_ne hqp] at hq
      cases hc : s.pc q <;> simp [hc, wake, Pc.sleeps] at hq
  case h_8 m =>
    refine hatt.keep (by simp [hpc]) ?_ rfl fun _ _ => rfl
    have hplace : s.sense.place p = .waiting m := congrArg Pc.place hpc
    split <;> rename_i hphase
    · intro _
      exact h.sense.flips_lt hplace phaseAt_succ_ne hphase.symm
    · simp [Pc.sleeps]
  case h_6 m =>
    refine hatt.keep (by simp [hpc]) ?_ rfl fun _ _ => rfl
    split <;> simp [Pc.sleeps]
  case h_7 m i =>
    refine hatt.keep (by simp [hpc]) ?_ rfl fun _ _ => rfl
    split <;> simp [Pc.sleeps]
  all_goals exact hatt.keep (by simp [hpc]) (by simp [Pc.sleeps]) rfl fun _ _ => rfl

theorem next (hs : next s p = some s') : s'.Invariant := by
  obtain ⟨hsize, hcount⟩ := h.count_next hs
  have hsense := (h.sense.moves phaseAt_succ (h.next_moves hs)).1
  exact ⟨hsize, hcount, hsense, fun _ => h.full_next hs, h.attended_next hs⟩

theorem spurious {m : Word} (hp : s.pc p = .asleep m) :
    (s.goto p (.checking m)).sense = s.sense ∧ (s.goto p (.checking m)).Invariant := by
  have hsense : (s.goto p (.checking m)).sense = s.sense :=
    Sense.ofPc_update_same _ _ _ (by rw [hp]; rfl)
  refine ⟨hsense, h.barrierSize, h.count_le, hsense.symm ▸ h.sense, ?_, ?_⟩
  · intro hpos hzero
    obtain ⟨q, hq⟩ := h.full hpos hzero
    have hqp : q ≠ p := by
      rintro rfl
      simp [hp] at hq
    exact ⟨q, by simpa [State.goto, hqp] using hq⟩
  · exact h.attended.keep (by simp [hp]) (by simp [Pc.sleeps]) rfl fun _ _ => rfl

/-- A sleeper of a round that all have entered is about to be woken. -/
theorem pending {m : Word} (hp : s.pc p = .asleep m)
    (hall : ∀ q, s.rounds.entered p ≤ s.rounds.entered q) :
    ∃ q, (s.pc q).wakePending ∧ s.rounds.entered q = s.rounds.entered p := by
  rcases h.attended p (by simp [hp, Pc.sleeps]) with hlt | ⟨q, hq, he⟩
  · obtain ⟨hentered, hcount | ⟨q, hq⟩⟩ := h.sense.full_or_flipping hlt hall
    · change size.toNat - s.barrier.barrierCount.toNat = _ at hcount
      have hzero : s.barrier.barrierCount = 0 := by
        have := p.pos
        have := h.count_le
        rw [Fintype.card_fin] at hcount
        apply BitVec.eq_of_toNat_eq
        simp
        omega
      obtain ⟨q, hq⟩ := h.full p.pos hzero
      exact ⟨q, by simp [hq, Pc.wakePending], hentered q⟩
    · have hflipping : s.pc q = .flipping := Pc.eq_flipping hq
      exact ⟨q, by simp [hflipping, Pc.wakePending], hentered q⟩
  · exact ⟨q, by simp [hq, Pc.wakePending], he⟩

end State.Invariant

theorem invariant_initial (size : Word) : (system size).initial.Invariant := by
  refine ⟨rfl, le_rfl, ?_, ?_, ?_⟩
  · have hinitial : (system size).initial.sense = .initial 0 := by
      simp [system, State.sense, Sense.ofPc, Sense.initial, Barrier.initialize, Barrier.new,
        Pc.place]
    rw [hinitial]
    exact Sense.invariant_initial rfl
  · intro hpos hzero
    change size = 0 at hzero
    simp [hzero] at hpos
  · intro p hp
    simp [system, Pc.sleeps] at hp

variable {s s' : State size}

theorem step_invariant {l : Label size} (h : s.Invariant) (hs : step s l = some s') :
    s'.Invariant ∧ Relation.ReflTransGen (Sense.Move fun m => ~~~m) s.sense s'.sense := by
  unfold step at hs
  split at hs
  case h_1 => exact ⟨h.next hs, h.next_moves hs⟩
  case h_2 m hpc =>
    cases hs
    obtain ⟨hsense, hinv⟩ := h.spurious hpc
    exact ⟨hinv, by rw [hsense]⟩
  case h_3 => cases hs

theorem invariant_reachable (hr : (system size).Reachable (fun _ _ => True) s) : s.Invariant :=
  hr.invariant (invariant_initial size) fun _ _ _ h _ hs => (step_invariant h hs).1

theorem refines_visits (size : Word) :
    (system size).Refines (fun _ _ => True) Visits.Step .initial fun s => s.rounds.toVisits where
  initial := rfl
  step := by
    intro s l s' hr _ hs
    have h := invariant_reachable hr
    exact (h.sense.moves phaseAt_succ (step_invariant h hs).2).2

theorem cyclic_reachable (hr : (system size).Reachable (fun _ _ => True) s) : s.Cyclic := by
  have h := invariant_reachable hr
  refine ⟨h.sense.rounds.left_le_entered, ?_, fun p m hp => h.pending hp⟩
  intro p hp
  have hplace : s.sense.place p = .outside := congrArg Pc.place hp
  have hcount : size.toNat - s.barrier.barrierCount.toNat = _ := h.sense.count_of_outside hplace
  have := h.count_le
  change size.toNat - s.barrier.barrierCount.toNat =
    (Finset.univ.filter fun q => s.rounds.entered q = s.rounds.left p + 1).card at hcount
  omega

end Futex

namespace Pthread

inductive Pc where
  | outside
  | acquiring
  | reading
  | incrementing (myPhase : Bool)
  | comparing (myPhase : Bool)
  | resetting
  | flipping
  | broadcasting
  | unlocking
  /-- under the lock, at the condition of the loop around `cnd.wait` -/
  | checking (myPhase : Bool)
  | asleep (myPhase : Bool)
  /-- in `cnd.wait`, to lock again -/
  | relocking (myPhase : Bool)
  | returning
  deriving DecidableEq

def Pc.holds : Pc → Bool
  | .reading => true
  | .incrementing _ => true
  | .comparing _ => true
  | .resetting => true
  | .flipping => true
  | .broadcasting => true
  | .unlocking => true
  | .checking _ => true
  | _ => false

structure Barrier where
  barrierPhase : Bool
  barrierCount : Word
  barrierSize : Word

def Barrier.new : Barrier := ⟨true, 0, 0⟩

def Barrier.initialize (b : Barrier) (size : Word) : Barrier := { b with barrierSize := size }

def Barrier.setCount (b : Barrier) (count : Word) : Barrier := { b with barrierCount := count }

def Barrier.setPhase (b : Barrier) (phase : Bool) : Barrier := { b with barrierPhase := phase }

@[simp] theorem Barrier.setCount_barrierSize (b : Barrier) (count : Word) :
    (b.setCount count).barrierSize = b.barrierSize := rfl

@[simp] theorem Barrier.setCount_barrierCount (b : Barrier) (count : Word) :
    (b.setCount count).barrierCount = count := rfl

structure State (size : Word) where
  barrier : Barrier
  lck : Option (Fin size.toNat)
  pc : Fin size.toNat → Pc
  rounds : Rounds (Fin size.toNat)

variable {size : Word}

def State.goto (s : State size) (p : Fin size.toNat) (c : Pc) : State size :=
  { s with pc := Function.update s.pc p c }

/-- `cnd.broadcast ()` -/
def broadcast : Pc → Pc
  | .asleep myPhase => .relocking myPhase
  | c => c

def next (s : State size) (p : Fin size.toNat) : Option (State size) :=
  match s.pc p with
  | .outside => some (s.goto p .acquiring)
  | .acquiring => if s.lck = none then some { s.goto p .reading with lck := some p } else none
  | .reading => some (s.goto p (.incrementing s.barrier.barrierPhase))
  | .incrementing myPhase =>
    some { s.goto p (.comparing myPhase) with
      barrier := s.barrier.setCount (s.barrier.barrierCount + 1)
      rounds := s.rounds.arrive p }
  | .comparing myPhase =>
    some (s.goto p (if s.barrier.barrierCount = s.barrier.barrierSize then .resetting
      else .checking myPhase))
  | .resetting =>
    some { s.goto p .flipping with
      barrier := s.barrier.setCount 0
      rounds := s.rounds.reset }
  | .flipping =>
    some { s.goto p .broadcasting with
      barrier := s.barrier.setPhase (!s.barrier.barrierPhase)
      rounds := s.rounds.flip p }
  | .broadcasting =>
    some { s with pc := Function.update (fun q => broadcast (s.pc q)) p .unlocking }
  | .unlocking => some { s.goto p .returning with lck := none }
  | .checking myPhase =>
    if myPhase = s.barrier.barrierPhase then
      some { s.goto p (.asleep myPhase) with lck := none }
    else some (s.goto p .unlocking)
  | .asleep _ => none
  | .relocking myPhase =>
    if s.lck = none then some { s.goto p (.checking myPhase) with lck := some p } else none
  | .returning => some { s.goto p .outside with rounds := s.rounds.depart p }

def step (s : State size) (l : Label size) : Option (State size) :=
  match l.act, s.pc l.thread with
  | .next, _ => next s l.thread
  | .spurious, .asleep myPhase => some (s.goto l.thread (.relocking myPhase))
  | .spurious, _ => none

def system (size : Word) : System (State size) (Label size) where
  initial :=
    { barrier := Barrier.initialize .new size
      lck := none
      pc := fun _ => .outside
      rounds := .initial }
  step := step

/-! ### The counter and the phase as a cyclic barrier -/

def Pc.place : Pc → Place Bool
  | .outside => .outside
  | .acquiring => .outside
  | .reading => .outside
  | .incrementing myPhase => .reading myPhase
  | .comparing myPhase => .waiting myPhase
  | .resetting => .resetting
  | .flipping => .flipping
  | .broadcasting => .released
  | .unlocking => .released
  | .checking myPhase => .waiting myPhase
  | .asleep myPhase => .waiting myPhase
  | .relocking myPhase => .waiting myPhase
  | .returning => .released

theorem Pc.eq_flipping {c : Pc} (h : c.place = .flipping) : c = .flipping := by
  cases c <;> first | rfl | cases h

theorem Pc.holds_of_closing {c : Pc} (h : c.place.closing) : c.holds := by
  cases c <;> first | rfl | exact h.elim

def Pc.sleeps : Pc → Bool
  | .asleep _ => true
  | _ => false

/-- The last to arrive, until it has woken the others. -/
def State.WakePending (s : State size) (q : Fin size.toNat) : Prop :=
  match s.pc q with
  | .comparing _ => s.barrier.barrierCount = size
  | .resetting => True
  | .flipping => True
  | .broadcasting => True
  | _ => False

def State.sense (s : State size) : Sense (Fin size.toNat) Bool :=
  .ofPc Pc.place s.barrier.barrierCount.toNat s.barrier.barrierPhase s.pc s.rounds

/-- The phase after `k` flips. -/
def phaseAt (k : ℕ) : Bool := !k.bodd

theorem phaseAt_succ (k : ℕ) : phaseAt (k + 1) = !phaseAt k := by
  unfold phaseAt
  rw [Nat.bodd_succ]

theorem phaseAt_succ_ne (k : ℕ) : phaseAt (k + 1) ≠ phaseAt k := by
  rw [phaseAt_succ]
  simp

@[simp] theorem broadcast_place (c : Pc) : (broadcast c).place = c.place := by
  cases c <;> rfl

@[simp] theorem broadcast_holds (c : Pc) : (broadcast c).holds = c.holds := by
  cases c <;> rfl

/-- What threads see of the rounds, the counter and the sleepers. -/
structure State.Cyclic (s : State size) : Prop where
  left_le : ∀ p q, s.rounds.left p ≤ s.rounds.entered q
  /-- the counter for whoever may enter its next round -/
  count : ∀ p, s.pc p = .outside → s.barrier.barrierCount.toNat =
    (Finset.univ.filter fun q => s.rounds.entered q = s.rounds.left p + 1).card
  asleep : ∀ p m, s.pc p = .asleep m → (∀ q, s.rounds.entered p ≤ s.rounds.entered q) →
    ∃ q, s.WakePending q ∧ s.rounds.entered q = s.rounds.entered p

structure State.Invariant (s : State size) : Prop where
  barrierSize : s.barrier.barrierSize = size
  locked : Locked Pc.holds s.pc s.lck
  sense : s.sense.Invariant phaseAt
  /-- whoever fills the counter goes on to reset it -/
  full : 0 < size.toNat → s.barrier.barrierCount = size →
    ∃ q, s.pc q = .resetting ∨ ∃ m, s.pc q = .comparing m
  attended : Attended (fun c => Pc.sleeps c) (· = .broadcasting) s.pc s.rounds

namespace State.Invariant

variable {s s' : State size} (h : s.Invariant) {p : Fin size.toNat}

include h

theorem count_incremented {m : Bool} (hp : s.pc p = .incrementing m) :
    (s.barrier.barrierCount + 1).toNat = s.barrier.barrierCount.toNat + 1 := by
  have hplaced := h.sense.placed p
  have hplace : s.sense.place p = .reading m := congrArg Pc.place hp
  rw [hplace] at hplaced
  have hcard := Finset.card_le_univ (s.rounds.arrive p).arrived
  have harrive : (s.rounds.arrive p).arrived.card = s.rounds.arrived.card + 1 :=
    h.sense.rounds.card_arrived_arrive hplaced.1
  have hcount : s.barrier.barrierCount.toNat = s.rounds.arrived.card := h.sense.count
  rw [harrive, Fintype.card_fin] at hcard
  have hlt := size.isLt
  bv_omega

theorem next_moves (hs : next s p = some s') :
    Relation.ReflTransGen (Sense.Move not) s.sense s'.sense := by
  have stay : ∀ {c : Pc}, c.place = (s.pc p).place →
      Relation.ReflTransGen (Sense.Move not) s.sense (s.goto p c).sense := by
    intro c hc
    rw [show (s.goto p c).sense = s.sense from Sense.ofPc_update_same _ _ _ hc]
  have hplace : s.sense.place p = (s.pc p).place := rfl
  unfold next at hs
  split at hs <;> rename_i hpc <;> rw [hpc] at stay hplace <;>
    simp only [Option.some.injEq, reduceCtorEq, Option.ite_none_right_eq_some] at hs
  case h_1 => exact hs ▸ stay rfl
  case h_2 => exact hs.2 ▸ stay rfl
  case h_3 => exact hs ▸ Sense.moves_update _ rfl (.read _ p hplace)
  case h_4 m =>
    subst hs
    refine Sense.moves_update _ rfl ?_
    rw [Barrier.setCount_barrierCount, h.count_incremented hpc]
    exact .arrive _ p m hplace
  case h_5 m =>
    subst hs
    split <;> rename_i hcount
    · refine Sense.moves_update _ rfl (.elect _ p m hplace ?_ ?_)
      · rw [Fintype.card_fin]
        exact congrArg BitVec.toNat (hcount.trans h.barrierSize)
      · intro q hq
        obtain rfl := h.locked.unique (Pc.holds_of_closing hq) (by rw [hpc]; rfl)
        rw [hplace] at hq
        exact hq
    · exact stay rfl
  case h_6 =>
    subst hs
    exact Sense.moves_update _ rfl (.reset _ p hplace)
  case h_7 => exact hs ▸ Sense.moves_update _ rfl (.flip _ p hplace)
  case h_8 =>
    subst hs
    refine (congrArg _ ?_).mp (stay (c := .unlocking) rfl)
    unfold State.sense Sense.ofPc
    congr 1
    funext q
    by_cases hq : q = p
    · subst hq
      simp [State.goto]
    · simp [State.goto, hq]
  case h_9 => exact hs ▸ stay rfl
  case h_10 m =>
    split at hs <;> rename_i hphase
    · exact Option.some.inj hs ▸ stay rfl
    · exact Option.some.inj hs ▸ Sense.moves_update _ rfl (.release _ p m hplace hphase)
  case h_12 m => exact hs.2 ▸ stay rfl
  case h_13 => exact hs ▸ Sense.moves_update _ rfl (.depart _ p hplace)

theorem locked_next (hs : next s p = some s') : Locked Pc.holds s'.pc s'.lck := by
  have hl := h.locked
  unfold next at hs
  split at hs <;> rename_i hpc <;>
    simp only [Option.some.injEq, reduceCtorEq, Option.ite_none_right_eq_some] at hs
  case h_2 =>
    obtain ⟨hnone, rfl⟩ := hs
    exact (hnone ▸ hl).acquire
  case h_5 m =>
    subst hs
    apply hl.keep
    simp [hpc, Pc.holds]
  case h_8 =>
    subst hs
    have hwoken : Locked Pc.holds (fun q => broadcast (s.pc q)) s.lck := by
      intro q hq
      rw [broadcast_holds] at hq
      exact hl q hq
    exact hwoken.keep (by simp [hpc, broadcast, Pc.holds])
  case h_9 => exact hs ▸ hl.unlock (by simp [hpc, Pc.holds]) (by simp [Pc.holds])
  case h_10 m =>
    split at hs <;> cases hs
    · exact hl.unlock (by simp [hpc, Pc.holds]) (by simp [Pc.holds])
    · exact hl.keep (by simp [hpc, Pc.holds])
  case h_12 m =>
    obtain ⟨hnone, rfl⟩ := hs
    exact (hnone ▸ hl).acquire
  all_goals exact hs ▸ hl.keep (by simp [hpc, Pc.holds])

theorem full_next (hs : next s p = some s') : s'.barrier.barrierSize = size ∧
    (s'.barrier.barrierCount = size → ∃ q, s'.pc q = .resetting ∨ ∃ m, s'.pc q = .comparing m) := by
  have hsize := h.barrierSize
  have keep : ∀ {c : Pc}, (s.pc p).place ≠ .resetting → (∀ m, s.pc p ≠ .comparing m) →
      s.barrier.barrierCount = size →
      ∃ q, Function.update s.pc p c q = .resetting ∨
        ∃ m, Function.update s.pc p c q = .comparing m := by
    intro c hr hm hcount
    obtain ⟨q, hq⟩ := h.full p.pos hcount
    have hqp : q ≠ p := by
      rintro rfl
      rcases hq with hq | ⟨m, hq⟩
      · exact hr (by rw [hq]; rfl)
      · exact hm m hq
    exact ⟨q, by rwa [Function.update_of_ne hqp]⟩
  unfold next at hs
  split at hs <;> rename_i hpc <;>
    simp only [Option.some.injEq, reduceCtorEq, Option.ite_none_right_eq_some] at hs
  case h_2 =>
    obtain ⟨-, rfl⟩ := hs
    exact ⟨hsize, keep (by simp [hpc, Pc.place]) (by simp [hpc])⟩
  case h_4 m =>
    subst hs
    exact ⟨(Barrier.setCount_barrierSize _ _).trans hsize, fun _ => ⟨p, .inr ⟨m, by simp [State.goto]⟩⟩⟩
  case h_5 m =>
    subst hs
    refine ⟨hsize, fun hcount => ⟨p, .inl ?_⟩⟩
    have hfull : s.barrier.barrierCount = s.barrier.barrierSize := hcount.trans hsize.symm
    simp [State.goto, hfull]
  case h_6 =>
    subst hs
    refine ⟨(Barrier.setCount_barrierSize _ _).trans hsize, fun hzero => ?_⟩
    rw [Barrier.setCount_barrierCount] at hzero
    have hpos := p.pos
    simp [← hzero] at hpos
  case h_8 =>
    subst hs
    refine ⟨hsize, fun hcount => ?_⟩
    obtain ⟨q, hq⟩ := keep (c := .unlocking) (by simp [hpc, Pc.place]) (by simp [hpc]) hcount
    refine ⟨q, ?_⟩
    by_cases hqp : q = p
    · simp [hqp] at hq
    · simp only [Function.update_of_ne hqp] at hq ⊢
      rcases hq with hq | ⟨m, hq⟩ <;> simp [hq, broadcast]
  case h_10 m =>
    split at hs <;> cases hs <;>
      exact ⟨hsize, keep (by simp [hpc, Pc.place]) (by simp [hpc])⟩
  case h_12 m =>
    obtain ⟨-, rfl⟩ := hs
    exact ⟨hsize, keep (by simp [hpc, Pc.place]) (by simp [hpc])⟩
  all_goals
    subst hs
    exact ⟨hsize, keep (by simp [hpc, Pc.place]) (by simp [hpc])⟩

theorem attended_next (hs : next s p = some s') :
    Attended (fun c => Pc.sleeps c) (· = .broadcasting) s'.pc s'.rounds := by
  have hatt := h.attended
  unfold next at hs
  split at hs <;> rename_i hpc <;>
    simp only [Option.some.injEq, reduceCtorEq, Option.ite_none_right_eq_some] at hs
  case h_2 =>
    obtain ⟨-, rfl⟩ := hs
    exact hatt.keep (by simp [hpc]) (by simp [Pc.sleeps]) rfl fun _ _ => rfl
  case h_4 m =>
    subst hs
    refine hatt.keep (by simp [hpc]) (by simp [Pc.sleeps]) rfl ?_
    intro q hq
    simp [Rounds.arrive, Visits.enter, hq]
  case h_5 m =>
    subst hs
    refine hatt.keep (by simp [hpc]) ?_ rfl fun _ _ => rfl
    split <;> simp [Pc.sleeps]
  case h_7 =>
    subst hs
    have hplace : s.sense.place p = .flipping := congrArg Pc.place hpc
    exact hatt.flip h.sense.rounds (by simp [hpc]) rfl (by simp [Pc.sleeps])
      (h.sense.entered_of_flipping hplace)
  case h_8 =>
    subst hs
    intro q hq
    by_cases hqp : q = p
    · simp [hqp, Pc.sleeps] at hq
    · simp only [Function.update_of_ne hqp] at hq
      cases hc : s.pc q <;> simp [hc, broadcast, Pc.sleeps] at hq
  case h_10 m =>
    have hplace : s.sense.place p = .waiting m := congrArg Pc.place hpc
    split at hs <;> rename_i hphase <;> cases hs
    · exact hatt.keep (by simp [hpc]) (fun _ => h.sense.flips_lt hplace phaseAt_succ_ne hphase) rfl
        fun _ _ => rfl
    · exact hatt.keep (by simp [hpc]) (by simp [Pc.sleeps]) rfl fun _ _ => rfl
  case h_12 m =>
    obtain ⟨-, rfl⟩ := hs
    exact hatt.keep (by simp [hpc]) (by simp [Pc.sleeps]) rfl fun _ _ => rfl
  all_goals
    subst hs
    exact hatt.keep (by simp [hpc]) (by simp [Pc.sleeps]) rfl fun _ _ => rfl

theorem next (hs : next s p = some s') : s'.Invariant := by
  obtain ⟨hsize, hfull⟩ := h.full_next hs
  have hsense := (h.sense.moves phaseAt_succ (h.next_moves hs)).1
  exact ⟨hsize, h.locked_next hs, hsense, fun _ => hfull, h.attended_next hs⟩

theorem spurious {m : Bool} (hp : s.pc p = .asleep m) :
    (s.goto p (.relocking m)).sense = s.sense ∧ (s.goto p (.relocking m)).Invariant := by
  have hsense : (s.goto p (.relocking m)).sense = s.sense :=
    Sense.ofPc_update_same _ _ _ (by rw [hp]; rfl)
  refine ⟨hsense, h.barrierSize, h.locked.keep (by simp [Pc.holds]), hsense.symm ▸ h.sense, ?_, ?_⟩
  · intro hpos hcount
    obtain ⟨q, hq⟩ := h.full hpos hcount
    have hqp : q ≠ p := by
      rintro rfl
      simp [hp] at hq
    exact ⟨q, by simpa [State.goto, hqp] using hq⟩
  · exact h.attended.keep (by simp [hp]) (by simp [Pc.sleeps]) rfl fun _ _ => rfl

/-- A sleeper of a round that all have entered is about to be woken. -/
theorem pending {m : Bool} (hp : s.pc p = .asleep m)
    (hall : ∀ q, s.rounds.entered p ≤ s.rounds.entered q) :
    ∃ q, s.WakePending q ∧ s.rounds.entered q = s.rounds.entered p := by
  rcases h.attended p (by simp [hp, Pc.sleeps]) with hlt | ⟨q, hq, he⟩
  · obtain ⟨hentered, hcount | ⟨q, hq⟩⟩ := h.sense.full_or_flipping hlt hall
    · change s.barrier.barrierCount.toNat = _ at hcount
      rw [Fintype.card_fin] at hcount
      have hfull := BitVec.eq_of_toNat_eq hcount
      obtain ⟨q, hq⟩ := h.full p.pos hfull
      refine ⟨q, ?_, hentered q⟩
      rcases hq with hq | ⟨m, hq⟩
      · simp [State.WakePending, hq]
      · simp [State.WakePending, hq, hfull]
    · have hflipping : s.pc q = .flipping := Pc.eq_flipping hq
      exact ⟨q, by simp [State.WakePending, hflipping], hentered q⟩
  · exact ⟨q, by simp [State.WakePending, hq], he⟩

end State.Invariant

theorem invariant_initial (size : Word) : (system size).initial.Invariant := by
  refine ⟨rfl, ?_, ?_, ?_, ?_⟩
  · intro p hp
    simp [system, Pc.holds] at hp
  · exact Sense.invariant_initial rfl
  · intro hpos hcount
    change 0 = size at hcount
    simp [← hcount] at hpos
  · intro p hp
    simp [system, Pc.sleeps] at hp

variable {s s' : State size}

theorem step_invariant {l : Label size} (h : s.Invariant) (hs : step s l = some s') :
    s'.Invariant ∧ Relation.ReflTransGen (Sense.Move not) s.sense s'.sense := by
  unfold step at hs
  split at hs
  case h_1 => exact ⟨h.next hs, h.next_moves hs⟩
  case h_2 m hpc =>
    cases hs
    obtain ⟨hsense, hinv⟩ := h.spurious hpc
    exact ⟨hinv, by rw [hsense]⟩
  case h_3 => cases hs

theorem invariant_reachable (hr : (system size).Reachable (fun _ _ => True) s) : s.Invariant :=
  hr.invariant (invariant_initial size) fun _ _ _ h _ hs => (step_invariant h hs).1

theorem refines_visits (size : Word) :
    (system size).Refines (fun _ _ => True) Visits.Step .initial fun s => s.rounds.toVisits where
  initial := rfl
  step := by
    intro s l s' hr _ hs
    have h := invariant_reachable hr
    exact (h.sense.moves phaseAt_succ (step_invariant h hs).2).2

theorem cyclic_reachable (hr : (system size).Reachable (fun _ _ => True) s) : s.Cyclic := by
  have h := invariant_reachable hr
  refine ⟨h.sense.rounds.left_le_entered, ?_, fun p m hp => h.pending hp⟩
  intro p hp
  have hplace : s.sense.place p = .outside := congrArg Pc.place hp
  exact h.sense.count_of_outside hplace

end Pthread

/-- Both barriers refine the cyclic barrier, for any number of threads. -/
theorem refines_cyclicBarrier (size : Word) :
    ((Futex.system size).Refines (fun _ _ => True) Visits.Step .initial
        (fun s => s.rounds.toVisits) ∧
      ∀ s, (Futex.system size).Reachable (fun _ _ => True) s → s.Cyclic) ∧
    (Pthread.system size).Refines (fun _ _ => True) Visits.Step .initial
        (fun s => s.rounds.toVisits) ∧
      ∀ s, (Pthread.system size).Reachable (fun _ _ => True) s → s.Cyclic :=
  ⟨⟨Futex.refines_visits size, fun _ => Futex.cyclic_reachable⟩,
    Pthread.refines_visits size, fun _ => Pthread.cyclic_reachable⟩

/-- Steps of one of two threads. -/
def steps (t : Fin (2 : Word).toNat) (k : ℕ) : List (Label 2) := List.replicate k ⟨t, .next⟩

/-- Thread 0 comes first, thread 1 ends the round and thread 0 leaves it. -/
def Futex.roundRun : List (Label 2) :=
  steps ⟨0, by decide⟩ 4 ++ steps ⟨1, by decide⟩ 6 ++ steps ⟨0, by decide⟩ 4

/-- Thread 0 comes first and sleeps until thread 1 ends the round. -/
def Pthread.roundRun : List (Label 2) :=
  steps ⟨0, by decide⟩ 6 ++ steps ⟨1, by decide⟩ 10 ++ steps ⟨0, by decide⟩ 4

theorem refines_cyclicBarrier_roundRun :
    (((Futex.system 2).final Futex.roundRun).Cyclic ∧
      ∀ p, ((Futex.system 2).final Futex.roundRun).rounds.left p = 1) ∧
    ((Pthread.system 2).final Pthread.roundRun).Cyclic ∧
      ∀ p, ((Pthread.system 2).final Pthread.roundRun).rounds.left p = 1 :=
  ⟨⟨(refines_cyclicBarrier 2).1.2 _ (System.reachable_final (by decide)), by decide⟩,
    (refines_cyclicBarrier 2).2.2 _ (System.reachable_final (by decide)), by decide⟩

end PFunc.InternalBarrier
