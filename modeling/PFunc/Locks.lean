import Mathlib.Logic.Function.Basic

/-! # An exclusive lock, seen from the program points under it -/

namespace PFunc.Locks

variable {P C : Type} [DecidableEq P]

/-- Who is at a program point under the lock owns it. -/
def Locked (holds : C → Bool) (pc : P → C) (owner : Option P) : Prop :=
  ∀ p, holds (pc p) → owner = some p

namespace Locked

variable {holds : C → Bool} {pc : P → C} {owner : Option P} {p q : P} {c : C}

omit [DecidableEq P] in
theorem unique (h : Locked holds pc owner) (hp : holds (pc p)) (hq : holds (pc q)) : p = q :=
  Option.some.inj ((h p hp).symm.trans (h q hq))

theorem keep (h : Locked holds pc owner) (hc : holds c → holds (pc p)) :
    Locked holds (Function.update pc p c) owner := by
  intro q hq
  by_cases hqp : q = p
  · subst hqp
    rw [Function.update_self] at hq
    exact h q (hc hq)
  · rw [Function.update_of_ne hqp] at hq
    exact h q hq

theorem acquire (h : Locked holds pc none) : Locked holds (Function.update pc p c) (some p) := by
  intro q hq
  by_cases hqp : q = p
  · rw [hqp]
  · rw [Function.update_of_ne hqp] at hq
    exact absurd (h q hq) (by simp)

theorem unlock (h : Locked holds pc owner) (hp : holds (pc p)) (hc : ¬holds c) :
    Locked holds (Function.update pc p c) none := by
  intro q hq
  by_cases hqp : q = p
  · subst hqp
    rw [Function.update_self] at hq
    exact absurd hq hc
  · rw [Function.update_of_ne hqp] at hq
    exact absurd (h.unique hp hq).symm hqp

end Locked

/-- The owner is at a program point under the lock. -/
def Owned (holds : C → Bool) (pc : P → C) (owner : Option P) : Prop :=
  ∀ p, owner = some p → holds (pc p) = true

/-- A party that goes to `c` stays on its side of the lock, takes the free lock, or releases
its own. -/
def Moves (holds : C → Bool) (pc : P → C) (p : P) (c : C) (owner owner' : Option P) : Prop :=
  (owner' = owner ∧ holds c = holds (pc p)) ∨
  (owner = none ∧ owner' = some p ∧ holds c = true) ∨
  (holds (pc p) = true ∧ owner' = none ∧ holds c = false)

variable {holds : C → Bool} {pc : P → C} {p : P} {c : C} {owner owner' : Option P}

theorem Locked.move (h : Locked holds pc owner) (hm : Moves holds pc p c owner owner') :
    Locked holds (Function.update pc p c) owner' := by
  rcases hm with ⟨rfl, hc⟩ | ⟨rfl, rfl, _⟩ | ⟨hp, rfl, hc⟩
  · exact h.keep fun hholds => hc ▸ hholds
  · exact h.acquire
  · exact h.unlock hp (by simp [hc])

theorem Owned.move (h : Owned holds pc owner) (hm : Moves holds pc p c owner owner') :
    Owned holds (Function.update pc p c) owner' := by
  intro q hq
  by_cases hqp : q = p
  · subst hqp
    rw [Function.update_self]
    rcases hm with ⟨rfl, hc⟩ | ⟨rfl, rfl, hc⟩ | ⟨_, rfl, _⟩
    · rw [hc]
      exact h q hq
    · exact hc
    · cases hq
  · rw [Function.update_of_ne hqp]
    rcases hm with ⟨rfl, hc⟩ | ⟨rfl, rfl, _⟩ | ⟨_, rfl, _⟩
    · exact h q hq
    · exact absurd (Option.some.inj hq).symm hqp
    · cases hq

end PFunc.Locks
