import Mathlib.Algebra.BigOperators.Group.Finset.Piecewise
import Mathlib.Algebra.Order.BigOperators.Group.Finset
import Mathlib.Data.Fintype.BigOperators

/-! # How many parties are at the program points of a kind -/

namespace PFunc.Headcounts

variable {P C : Type} [Fintype P]

/-- What the program points of all parties weigh together. -/
def total (weight : C → ℕ) (pc : P → C) : ℕ := ∑ p, weight (pc p)

/-- The number of parties at a point of the kind. -/
def headcount (kind : C → Bool) (pc : P → C) : ℕ := total (fun c => (kind c).toNat) pc

variable {kind : C → Bool} {pc : P → C} {p : P} {c : C}

theorem headcount_eq_zero : headcount kind pc = 0 ↔ ∀ p, kind (pc p) = false := by
  simp [headcount, total]

theorem headcount_pos : 0 < headcount kind pc ↔ ∃ p, kind (pc p) = true := by
  rw [Nat.pos_iff_ne_zero, Ne, headcount_eq_zero]
  simp

theorem headcount_mono {kind' : C → Bool} (h : ∀ p, kind (pc p) → kind' (pc p)) :
    headcount kind pc ≤ headcount kind' pc := by
  apply Finset.sum_le_sum
  intro p _
  change (kind (pc p)).toNat ≤ (kind' (pc p)).toNat
  cases hk : kind (pc p) with
  | false => exact Nat.zero_le _
  | true => rw [h p hk]

theorem total_le_mul {weight : C → ℕ} {k : ℕ} (h : ∀ c, weight c ≤ k) :
    total weight pc ≤ Fintype.card P * k :=
  Finset.sum_le_card_nsmul Finset.univ _ k fun p _ => h (pc p)

theorem headcount_le_card : headcount kind pc ≤ Fintype.card P := by
  have hle : headcount kind pc ≤ Fintype.card P * 1 := total_le_mul fun c => Bool.toNat_le (kind c)
  rwa [Nat.mul_one] at hle

theorem headcount_eq_card (h : ∀ p, kind (pc p) = true) :
    headcount kind pc = Fintype.card P := by
  simp [headcount, total, h]

variable [DecidableEq P]

/-- One party moves. -/
theorem total_update (weight : C → ℕ) (pc : P → C) (p : P) (c : C) :
    total weight (Function.update pc p c) + weight (pc p) = total weight pc + weight c := by
  have hupdate : ∀ q, weight (Function.update pc p c q) =
      Function.update (fun q => weight (pc q)) p (weight c) q :=
    Function.apply_update (fun _ c => weight c) pc p c
  have hold := Finset.add_sum_erase Finset.univ (fun q => weight (pc q)) (Finset.mem_univ p)
  unfold total
  simp only [hupdate]
  rw [Finset.sum_update_of_mem (Finset.mem_univ p), Finset.sdiff_singleton_eq_erase]
  omega

theorem headcount_update (kind : C → Bool) (pc : P → C) (p : P) (c : C) :
    headcount kind (Function.update pc p c) + (kind (pc p)).toNat =
      headcount kind pc + (kind c).toNat :=
  total_update _ pc p c

omit [Fintype P] in
theorem kind_update_same (h : kind c = kind (pc p)) (q : P) :
    kind (Function.update pc p c q) = kind (pc q) := by
  by_cases hq : q = p
  · subst hq
    simpa using h
  · simp [hq]

theorem headcount_update_same (h : kind c = kind (pc p)) :
    headcount kind (Function.update pc p c) = headcount kind pc := by
  have hupdate := headcount_update kind pc p c
  rw [h] at hupdate
  omega

/-- Somebody is elsewhere. -/
theorem headcount_lt_card (h : kind (pc p) = false) : headcount kind pc < Fintype.card P := by
  have hsum := Finset.add_sum_erase Finset.univ (fun q => (kind (pc q)).toNat) (Finset.mem_univ p)
  have hrest : ∑ q ∈ Finset.univ.erase p, (kind (pc q)).toNat ≤ (Finset.univ.erase p).card := by
    simpa using Finset.sum_le_card_nsmul (Finset.univ.erase p) (fun q => (kind (pc q)).toNat) 1
      fun q _ => Bool.toNat_le _
  have hcard : (Finset.univ.erase p).card < Fintype.card P := by
    simpa using Finset.card_erase_lt_of_mem (Finset.mem_univ p)
  rw [h] at hsum
  simp only [Bool.toNat_false, zero_add] at hsum
  change ∑ q, (kind (pc q)).toNat < _
  omega

/-- All but one are there. -/
theorem headcount_add_one (hp : kind (pc p) = false) (h : ∀ q, q ≠ p → kind (pc q) = true) {c : C}
    (hc : kind c = true) : headcount kind pc + 1 = Fintype.card P := by
  have hupdate := headcount_update kind pc p c
  have hall : headcount kind (Function.update pc p c) = Fintype.card P := by
    refine headcount_eq_card fun q => ?_
    by_cases hq : q = p
    · simpa [hq] using hc
    · simpa [hq] using h q hq
  rw [hall, hp, hc] at hupdate
  exact hupdate.symm

end PFunc.Headcounts
