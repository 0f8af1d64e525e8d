import PFunc.LabelledRuns
import PFunc.Locks
import Mathlib.Data.Fintype.Defs
import Mathlib.Logic.Relation

/-!
# Monitors

A program for any number of parties that share data, one exclusive lock and one condition
variable: to wait releases the lock at once, a signal gives a permit if somebody waits, whoever
waits wakes with a permit, a broadcast wakes all who wait, and whoever has been woken takes the
lock again before the call returns. A permit is nobody's: it may go to a party that began to
wait after the signal. Nor does a permit lapse, and while somebody who has been woken is still
on the way out there may be one too many, so a wait may end without a signal of its own. The
program is a table of its points; what it asks for at a point does not depend on the shared
data, and it keeps the discipline of the lock.
-/

namespace PFunc.Monitors

open LabelledRuns Locks

variable {P σ C : Type}

/-- What a program does at a point. -/
inductive Op (P σ C : Type) where
  /-- one access to the shared data, on which the next point may depend -/
  | update (f : P → σ → σ × C)
  | lock
  | unlock
  | wait
  | signal
  | broadcast

/-- The three calls on the condition variable. -/
def Op.IsCall : Op P σ C → Prop
  | .wait => True
  | .signal => True
  | .broadcast => True
  | _ => False

/-- A call made at the point `c` returns to `next c`. -/
structure Program (P σ C : Type) where
  start : C
  op : C → Op P σ C
  next : C → C
  /-- the points at which the lock is held -/
  holds : C → Bool
  start_holds : holds start = false
  update_holds : ∀ {c f}, op c = .update f → ∀ p s, holds (f p s).2 = holds c
  lock_holds : ∀ {c}, op c = .lock → holds c = false ∧ holds (next c) = true
  unlock_holds : ∀ {c}, op c = .unlock → holds c = true ∧ holds (next c) = false
  call_holds : ∀ {c}, (op c).IsCall → holds c = true ∧ holds (next c) = true

/-- Where a party is; whoever is in `wait` remembers the point of the call. -/
inductive Place (C : Type) where
  | at (c : C)
  | waiting (c : C)
  | relocking (c : C)
  deriving DecidableEq

structure State (P σ C : Type) where
  shared : σ
  owner : Option P
  /-- how many waits may end -/
  permits : ℕ
  place : P → Place C

inductive Act where
  | next
  /-- a waiter takes a permit -/
  | wake
  /-- while the party is on the way out, there comes to be a permit too many -/
  | stray
  deriving DecidableEq

structure Label (P : Type) where
  party : P
  act : Act
  deriving DecidableEq

def Place.isWaiting : Place C → Bool
  | .waiting _ => true
  | _ => false

/-- What a broadcast does to a place. -/
def Place.wake : Place C → Place C
  | .waiting c => .relocking c
  | x => x

section Program

variable {K : Program P σ C} {c : C}

theorem Program.wait_holds (h : K.op c = .wait) : K.holds c = true ∧ K.holds (K.next c) = true :=
  K.call_holds (by simp [h, Op.IsCall])

theorem Program.signal_holds (h : K.op c = .signal) :
    K.holds c = true ∧ K.holds (K.next c) = true :=
  K.call_holds (by simp [h, Op.IsCall])

theorem Program.broadcast_holds (h : K.op c = .broadcast) :
    K.holds c = true ∧ K.holds (K.next c) = true :=
  K.call_holds (by simp [h, Op.IsCall])

end Program

variable [DecidableEq P] [Fintype P] (K : Program P σ C)

def State.goto (s : State P σ C) (p : P) (x : Place C) : State P σ C :=
  { s with place := Function.update s.place p x }

/-- The lock is taken, if it is free. -/
def State.lock (s : State P σ C) (p : P) (c : C) : Option (State P σ C) :=
  if s.owner = none then some { s.goto p (.at c) with owner := some p } else none

def next (s : State P σ C) (p : P) : Option (State P σ C) :=
  match s.place p with
  | .at c =>
    match K.op c with
    | .update f => some { s.goto p (.at (f p s.shared).2) with shared := (f p s.shared).1 }
    | .lock => s.lock p (K.next c)
    | .unlock => some { s.goto p (.at (K.next c)) with owner := none }
    | .wait => some { s.goto p (.waiting c) with owner := none }
    | .signal =>
      some { s.goto p (.at (K.next c)) with
        permits := s.permits + if ∃ q, (s.place q).isWaiting then 1 else 0 }
    | .broadcast =>
      some { s with place := Function.update (fun q => (s.place q).wake) p (.at (K.next c)) }
  | .waiting _ => none
  | .relocking c => s.lock p (K.next c)

def step (s : State P σ C) (l : Label P) : Option (State P σ C) :=
  match l.act, s.place l.party with
  | .next, _ => next K s l.party
  | .wake, .waiting c =>
    if 0 < s.permits then
      some { s.goto l.party (.relocking c) with permits := s.permits - 1 }
    else none
  | .wake, _ => none
  | .stray, .relocking _ => some { s with permits := s.permits + 1 }
  | .stray, _ => none

def system (shared : σ) : System (State P σ C) (Label P) where
  initial := ⟨shared, none, 0, fun _ => .at K.start⟩
  step := step K

/-- One step of some party. -/
def Step (s s' : State P σ C) : Prop := ∃ l, step K s l = some s'

/-- The places at which the lock is held. -/
def Place.holds : Place C → Bool
  | .at c => K.holds c
  | _ => false

/-- Whoever waits has called `wait`. -/
def Place.Belongs : Place C → Prop
  | .at _ => True
  | .waiting c => K.op c = .wait
  | .relocking c => K.op c = .wait

structure State.Invariant (s : State P σ C) : Prop where
  locked : Locked (Place.holds K) s.place s.owner
  belongs : ∀ p, (s.place p).Belongs K

variable {K} {s s' : State P σ C} {p : P}

omit [DecidableEq P] [Fintype P] in
@[simp] theorem Place.holds_wake (x : Place C) : x.wake.holds K = x.holds K := by
  cases x <;> rfl

omit [DecidableEq P] [Fintype P] in
theorem Place.Belongs.wake {x : Place C} (h : x.Belongs K) : x.wake.Belongs K := by
  cases x <;> exact h

theorem invariant_initial (shared : σ) : (system K shared).initial.Invariant K := by
  refine ⟨fun p hp => ?_, fun p => trivial⟩
  simp [system, Place.holds, K.start_holds] at hp

namespace State.Invariant

variable (h : s.Invariant K)

include h

omit [Fintype P] in
theorem belongs_update {x : Place C} (hx : x.Belongs K) (q : P) :
    (Function.update s.place p x q).Belongs K := by
  by_cases hq : q = p
  · subst hq
    simpa using hx
  · simpa [hq] using h.belongs q

omit [Fintype P] in
theorem lock {c : C} (hs : s.lock p c = some s') : s'.Invariant K := by
  unfold State.lock at hs
  split at hs
  · rename_i hfree
    cases hs
    exact ⟨(hfree ▸ h.locked).acquire, h.belongs_update trivial⟩
  · cases hs

theorem next (hs : next K s p = some s') : s'.Invariant K := by
  unfold Monitors.next at hs
  split at hs
  case h_1 c hp =>
    split at hs <;> rename_i hop
    · cases hs
      refine ⟨h.locked.keep ?_, h.belongs_update trivial⟩
      simp [hp, Place.holds, K.update_holds hop]
    · exact h.lock hs
    · cases hs
      have hholds := K.unlock_holds hop
      exact ⟨h.locked.unlock (p := p) (by simp [hp, Place.holds, hholds])
        (by simp [Place.holds, hholds]), h.belongs_update trivial⟩
    · cases hs
      have hholds := K.wait_holds hop
      exact ⟨h.locked.unlock (p := p) (by simp [hp, Place.holds, hholds])
        (by simp [Place.holds]), h.belongs_update hop⟩
    · cases hs
      have hholds := K.signal_holds hop
      exact ⟨h.locked.keep (by simp [hp, Place.holds, hholds]), h.belongs_update trivial⟩
    · cases hs
      have hholds := K.broadcast_holds hop
      have hwoken : State.Invariant K { s with place := fun q => (s.place q).wake } := by
        refine ⟨fun q hq => h.locked q ?_, fun q => (h.belongs q).wake⟩
        simpa using hq
      exact ⟨hwoken.locked.keep (by simp [hp, Place.wake, Place.holds, hholds]),
        hwoken.belongs_update trivial⟩
  case h_2 => cases hs
  case h_3 c hp => exact h.lock hs

theorem step (hs : Step K s s') : s'.Invariant K := by
  obtain ⟨l, hs⟩ := hs
  unfold Monitors.step at hs
  split at hs
  · exact h.next hs
  · rename_i c hp
    split at hs
    · cases hs
      have hbelongs := h.belongs l.party
      rw [hp] at hbelongs
      exact ⟨h.locked.keep (by simp [Place.holds]), h.belongs_update hbelongs⟩
    · cases hs
  · cases hs
  · cases hs
    exact ⟨h.locked, h.belongs⟩
  · cases hs

end State.Invariant

/-- Any number of permits too many, while a party is on the way out. -/
theorem strays {c : C} (hp : s.place p = .relocking c) (n : ℕ) :
    Relation.ReflTransGen (Step K) s { s with permits := s.permits + n } := by
  induction n with
  | zero => exact .refl
  | succ n ih =>
    refine ih.tail ⟨⟨p, .stray⟩, ?_⟩
    simp only [step, hp]
    rfl

end PFunc.Monitors
