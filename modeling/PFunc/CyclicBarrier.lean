import PFunc.LabelledRuns
import Mathlib.Data.Finset.Card
import Mathlib.Data.Fintype.Card

/-!
# Cyclic barriers

`Visits` is what a barrier is for: a party leaves a round only when every party has
entered it. `Sense` is the way to build one from a counter and a phase that is toggled
when the counter is full. The second refines the first.
-/

namespace PFunc.CyclicBarrier

open Relation

variable {P α : Type}

/-- How many rounds each party has entered and left. -/
structure Visits (P : Type) where
  entered : P → ℕ
  left : P → ℕ

namespace Visits

def initial : Visits P := ⟨fun _ => 0, fun _ => 0⟩

variable [DecidableEq P]

def enter (v : Visits P) (p : P) : Visits P :=
  { v with entered := Function.update v.entered p (v.entered p + 1) }

def leave (v : Visits P) (p : P) : Visits P :=
  { v with left := Function.update v.left p (v.left p + 1) }

inductive Step : Visits P → Visits P → Prop
  | enter (v : Visits P) (p : P) (h : v.entered p = v.left p) : Step v (v.enter p)
  | leave (v : Visits P) (p : P) (h : ∀ q, v.left p < v.entered q) : Step v (v.leave p)

end Visits

/-- The history of a barrier: besides the visits, how often the counter was reset and the
phase toggled, and by whom in which round. -/
structure Rounds (P : Type) extends Visits P where
  resets : ℕ
  flips : ℕ
  flippers : ℕ → List P

namespace Rounds

def initial : Rounds P := ⟨.initial, 0, 0, fun _ => []⟩

def reset (x : Rounds P) : Rounds P := { x with resets := x.resets + 1 }

def flip (x : Rounds P) (p : P) : Rounds P :=
  { x with
    flips := x.flips + 1
    flippers := Function.update x.flippers (x.entered p) (p :: x.flippers (x.entered p)) }

/-- The parties that have arrived since the last reset. -/
def arrived [Fintype P] (x : Rounds P) : Finset P :=
  Finset.univ.filter fun p => x.entered p = x.resets + 1

structure Invariant (x : Rounds P) : Prop where
  left_le : ∀ p, x.left p ≤ x.entered p
  entered_le : ∀ p, x.entered p ≤ x.left p + 1
  left_le_flips : ∀ p, x.left p ≤ x.flips
  flips_le : x.flips ≤ x.resets
  resets_le : x.resets ≤ x.flips + 1
  resets_le_entered : ∀ p, x.resets ≤ x.entered p
  flippers : ∀ k, (x.flippers k).length = if 1 ≤ k ∧ k ≤ x.flips then 1 else 0

section

variable {x : Rounds P} (h : x.Invariant)

include h

theorem Invariant.left_le_entered (p q : P) : x.left p ≤ x.entered q := by
  have := h.left_le_flips p
  have := h.flips_le
  have := h.resets_le_entered q
  omega

theorem Invariant.entered_of_outside {p : P} (hp : x.entered p = x.left p) :
    x.entered p = x.resets ∧ x.resets = x.flips := by
  have := h.left_le_flips p
  have := h.flips_le
  have := h.resets_le_entered p
  omega

/-- All parties have entered the round that `p` is in, and it goes on. -/
theorem Invariant.entered_of_all {p : P} (hp : x.flips < x.entered p)
    (hall : ∀ q, x.entered p ≤ x.entered q) (q : P) : x.entered q = x.flips + 1 := by
  have := h.entered_le q
  have := h.left_le_flips q
  have := hall q
  omega

theorem Invariant.reset (hf : x.resets = x.flips) (ha : ∀ p, x.entered p = x.flips + 1) :
    x.reset.Invariant := by
  refine ⟨h.left_le, h.entered_le, h.left_le_flips, ?_, ?_, ?_, h.flippers⟩
  · simp only [Rounds.reset]
    omega
  · simp only [Rounds.reset]
    omega
  · intro p
    have := ha p
    simp only [Rounds.reset]
    omega

theorem Invariant.flip {p : P} (hf : x.resets = x.flips + 1) (hp : x.entered p = x.flips + 1) :
    (x.flip p).Invariant := by
  refine ⟨h.left_le, h.entered_le, ?_, ?_, ?_, h.resets_le_entered, ?_⟩
  · intro q
    have := h.left_le_flips q
    simp only [Rounds.flip]
    omega
  · simp only [Rounds.flip]
    omega
  · simp only [Rounds.flip]
    omega
  · intro k
    have hold := h.flippers k
    simp only [Rounds.flip, hp]
    by_cases hk : k = x.flips + 1
    · subst hk
      rw [if_neg (by omega)] at hold
      simp [hold]
    · rw [Function.update_of_ne hk, hold]
      congr 1
      apply propext
      omega

omit h

variable [Fintype P]

theorem mem_arrived {p : P} : p ∈ x.arrived ↔ x.entered p = x.resets + 1 := by simp [arrived]

theorem entered_of_card (hc : x.arrived.card = Fintype.card P) (p : P) :
    x.entered p = x.resets + 1 := by
  rw [← mem_arrived, (Finset.card_eq_iff_eq_univ _).mp hc]
  exact Finset.mem_univ p

theorem card_arrived_of_all (ha : ∀ p, x.entered p = x.resets + 1) :
    x.arrived.card = Fintype.card P := by
  apply (Finset.card_eq_iff_eq_univ _).mpr
  apply Finset.eq_univ_of_forall
  intro p
  exact mem_arrived.mpr (ha p)

theorem card_arrived_reset (ha : ∀ p, x.entered p = x.resets + 1) : x.reset.arrived.card = 0 := by
  apply Finset.card_eq_zero.mpr
  apply Finset.filter_eq_empty_iff.mpr
  intro p _
  simp [Rounds.reset, ha p]

end

variable [DecidableEq P]

def arrive (x : Rounds P) (p : P) : Rounds P := { x with toVisits := x.enter p }

def depart (x : Rounds P) (p : P) : Rounds P := { x with toVisits := x.leave p }

namespace Invariant

variable {x : Rounds P} (h : x.Invariant) {p : P}

include h

theorem arrive (hp : x.entered p = x.left p) : (x.arrive p).Invariant := by
  obtain ⟨he, hf⟩ := h.entered_of_outside hp
  refine ⟨?_, ?_, h.left_le_flips, h.flips_le, h.resets_le, ?_, h.flippers⟩
  all_goals
    intro q
    have := h.left_le q
    have := h.entered_le q
    have := h.resets_le_entered q
    by_cases hq : q = p
    · subst hq
      simp [Rounds.arrive, Visits.enter]
      omega
    · simpa [Rounds.arrive, Visits.enter, hq]

theorem depart (hp : x.entered p = x.left p + 1) (hf : x.entered p ≤ x.flips) :
    (x.depart p).Invariant := by
  refine ⟨?_, ?_, ?_, h.flips_le, h.resets_le, h.resets_le_entered, h.flippers⟩
  all_goals
    intro q
    have := h.left_le q
    have := h.entered_le q
    have := h.left_le_flips q
    by_cases hq : q = p
    · subst hq
      simp [Rounds.depart, Visits.leave]
      omega
    · simp [Rounds.depart, Visits.leave, hq]
      omega

theorem card_arrived_arrive [Fintype P] (hp : x.entered p = x.left p) :
    (x.arrive p).arrived.card = x.arrived.card + 1 := by
  obtain ⟨he, -⟩ := h.entered_of_outside hp
  have hnot : p ∉ x.arrived := by simp [mem_arrived, he]
  have hinsert : (x.arrive p).arrived = insert p x.arrived := by
    apply Finset.ext
    intro q
    rw [mem_arrived, Finset.mem_insert, mem_arrived]
    by_cases hq : q = p
    · subst hq
      simp [Rounds.arrive, Visits.enter, he]
    · simp [Rounds.arrive, Visits.enter, hq]
  rw [hinsert, Finset.card_insert_of_notMem hnot]

end Invariant

end Rounds

/-! ### Sleepers -/

section

variable {C : Type}

/-- A sleeper's round goes on, or the wake of the round is still to come. -/
def Attended (asleep waking : C → Prop) (pc : P → C) (x : Rounds P) : Prop :=
  ∀ p, asleep (pc p) → x.flips < x.entered p ∨ ∃ q, waking (pc q) ∧ x.entered q = x.entered p

variable [DecidableEq P] {asleep waking : C → Prop} {pc : P → C} {x y : Rounds P} {p : P} {c : C}

theorem Attended.keep (h : Attended asleep waking pc x) (hp : ¬waking (pc p))
    (hc : asleep c → y.flips < y.entered p) (hf : y.flips = x.flips)
    (he : ∀ q ≠ p, y.entered q = x.entered q) :
    Attended asleep waking (Function.update pc p c) y := by
  intro q hq
  by_cases hqp : q = p
  · subst hqp
    rw [Function.update_self] at hq
    exact .inl (hc hq)
  · rw [Function.update_of_ne hqp] at hq
    rcases h q hq with hlt | ⟨r, hr, her⟩
    · exact .inl (by rw [hf, he q hqp]; exact hlt)
    · have hrp : r ≠ p := by
        rintro rfl
        exact hp hr
      exact .inr ⟨r, by rw [Function.update_of_ne hrp]; exact hr, by rw [he r hrp, he q hqp, her]⟩

/-- Who flips the phase is the one to wake the sleepers of the round. -/
theorem Attended.flip (h : Attended asleep waking pc x) (hx : x.Invariant) (hp : ¬waking (pc p))
    (hw : waking c) (hc : ¬asleep c) (he : x.entered p = x.flips + 1) :
    Attended asleep waking (Function.update pc p c) (x.flip p) := by
  intro q hq
  by_cases hqp : q = p
  · subst hqp
    rw [Function.update_self] at hq
    exact absurd hq hc
  · rw [Function.update_of_ne hqp] at hq
    rcases h q hq with hlt | ⟨r, hr, her⟩
    · refine .inr ⟨p, by rw [Function.update_self]; exact hw, ?_⟩
      have := hx.entered_le q
      have := hx.left_le_flips q
      change x.entered p = x.entered q
      omega
    · have hrp : r ≠ p := by
        rintro rfl
        exact hp hr
      exact .inr ⟨r, by rw [Function.update_of_ne hrp]; exact hr, her⟩

end

/-! ### A counter and a phase -/

/-- Where a party is; `m` is the phase it read on its way in. -/
inductive Place (α : Type) where
  | outside
  | reading (m : α)
  | waiting (m : α)
  | resetting
  | flipping
  | released
  deriving DecidableEq

/-- Between having found the counter full and having toggled the phase. -/
def Place.closing : Place α → Prop
  | .resetting => True
  | .flipping => True
  | _ => False

structure Sense (P α : Type) where
  count : ℕ
  phase : α
  place : P → Place α
  rounds : Rounds P

namespace Sense

def initial (phase : α) : Sense P α := ⟨0, phase, fun _ => .outside, .initial⟩

/-- The places of the program points of the parties. -/
def ofPc {C : Type} (place : C → Place α) (count : ℕ) (phase : α) (pc : P → C)
    (rounds : Rounds P) : Sense P α :=
  ⟨count, phase, fun p => place (pc p), rounds⟩

variable [DecidableEq P]

def goto (s : Sense P α) (p : P) (c : Place α) : Sense P α :=
  { s with place := Function.update s.place p c }

variable [Fintype P] (toggle : α → α)

inductive Move : Sense P α → Sense P α → Prop
  | read (s : Sense P α) (p : P) (h : s.place p = .outside) :
      Move s (s.goto p (.reading s.phase))
  | arrive (s : Sense P α) (p : P) (m : α) (h : s.place p = .reading m) :
      Move s { s.goto p (.waiting m) with
        count := s.count + 1
        rounds := s.rounds.arrive p }
  | elect (s : Sense P α) (p : P) (m : α) (h : s.place p = .waiting m)
      (hcount : s.count = Fintype.card P) (hnone : ∀ q, ¬(s.place q).closing) :
      Move s (s.goto p .resetting)
  | reset (s : Sense P α) (p : P) (h : s.place p = .resetting) :
      Move s { s.goto p .flipping with
        count := 0
        rounds := s.rounds.reset }
  | flip (s : Sense P α) (p : P) (h : s.place p = .flipping) :
      Move s { s.goto p .released with
        phase := toggle s.phase
        rounds := s.rounds.flip p }
  | release (s : Sense P α) (p : P) (m : α) (h : s.place p = .waiting m) (hm : m ≠ s.phase) :
      Move s (s.goto p .released)
  | depart (s : Sense P α) (p : P) (h : s.place p = .released) :
      Move s { s.goto p .outside with rounds := s.rounds.depart p }

section

variable {C : Type} {place : C → Place α} {pc : P → C} {p : P} {c : C}

omit [Fintype P] in
theorem ofPc_update (count : ℕ) (phase : α) (rounds : Rounds P) :
    ofPc place count phase (Function.update pc p c) rounds =
      ⟨count, phase, Function.update (fun q => place (pc q)) p (place c), rounds⟩ := by
  unfold ofPc
  congr 1
  funext q
  by_cases hq : q = p
  · subst hq
    simp
  · simp [hq]

omit [Fintype P] in
/-- A step to a program point of the same place is not seen. -/
theorem ofPc_update_same (count : ℕ) (phase : α) (rounds : Rounds P)
    (h : place c = place (pc p)) :
    ofPc place count phase (Function.update pc p c) rounds = ofPc place count phase pc rounds := by
  rw [ofPc_update, h]
  exact congrArg (fun f => Sense.mk count phase f rounds) (Function.update_eq_self p _)

theorem moves_update {s : Sense P α} {count : ℕ} {phase : α} {rounds : Rounds P}
    (hs : s.place = fun q => place (pc q))
    (hm : Move toggle s ⟨count, phase, Function.update s.place p (place c), rounds⟩) :
    ReflTransGen (Move toggle) s (ofPc place count phase (Function.update pc p c) rounds) := by
  rw [ofPc_update]
  exact .single (hs ▸ hm)

end

/-- What the place of a party says about the rounds; `phases k` is the phase after `k` flips. -/
def Placed (phases : ℕ → α) (x : Rounds P) (p : P) : Place α → Prop
  | .outside => x.entered p = x.left p
  | .reading m => x.entered p = x.left p ∧ m = phases x.flips
  | .waiting m => x.entered p = x.left p + 1 ∧ m = phases (x.left p)
  | .resetting => x.entered p = x.left p + 1 ∧ x.resets = x.flips ∧ ∀ q, x.entered q = x.flips + 1
  | .flipping => x.entered p = x.left p + 1 ∧ x.resets = x.flips + 1
  | .released => x.entered p = x.left p + 1 ∧ x.entered p ≤ x.flips

structure Invariant (phases : ℕ → α) (s : Sense P α) : Prop where
  rounds : s.rounds.Invariant
  count : s.count = s.rounds.arrived.card
  phase : s.phase = phases s.rounds.flips
  placed : ∀ p, Placed phases s.rounds p (s.place p)
  unique : ∀ p q, (s.place p).closing → (s.place q).closing → p = q
  flipper : s.rounds.resets = s.rounds.flips ∨ ∃ p, s.place p = .flipping

variable {toggle} {phases : ℕ → α} {s t : Sense P α} {p : P}

omit [DecidableEq P] [Fintype P] in
theorem Placed.congr {x y : Rounds P} {c : Place α}
    (hc : Placed phases x p c) (hn : ¬c.closing) (he : y.entered p = x.entered p)
    (hl : y.left p = x.left p) (hf : x.flips ≤ y.flips)
    (hread : x.entered p = x.left p → y.flips = x.flips) : Placed phases y p c := by
  cases c with
  | outside => exact he.trans (hc.trans hl.symm)
  | reading m => exact ⟨he.trans (hc.1.trans hl.symm), (hread hc.1).symm ▸ hc.2⟩
  | waiting m => exact ⟨by rw [he, hl, hc.1], by rw [hl, hc.2]⟩
  | resetting => exact absurd trivial hn
  | flipping => exact absurd trivial hn
  | released => exact ⟨by rw [he, hl, hc.1], by rw [he]; exact hc.2.trans hf⟩

omit [DecidableEq P] in
theorem invariant_initial {phase : α} (h : phases 0 = phase) :
    (Sense.initial phase : Sense P α).Invariant phases := by
  refine ⟨⟨?_, ?_, ?_, le_rfl, ?_, ?_, ?_⟩, ?_, h.symm, fun _ => rfl, ?_, .inl rfl⟩
  · intro p
    exact le_rfl
  · simp [Sense.initial, Rounds.initial, Visits.initial]
  · simp [Sense.initial, Rounds.initial, Visits.initial]
  · simp [Sense.initial, Rounds.initial]
  · simp [Sense.initial, Rounds.initial]
  · intro k
    rw [if_neg (by simp [Sense.initial, Rounds.initial]; omega)]
    rfl
  · simp [Sense.initial, Rounds.arrived, Rounds.initial, Visits.initial]
  · intro p q hp
    exact hp.elim

namespace Invariant

variable (h : s.Invariant phases)

include h

omit [DecidableEq P] in
/-- A round that all have entered and that goes on has been counted in full, or it is being
ended. -/
theorem full_or_flipping (hp : s.rounds.flips < s.rounds.entered p)
    (hall : ∀ q, s.rounds.entered p ≤ s.rounds.entered q) :
    (∀ q, s.rounds.entered q = s.rounds.entered p) ∧
      (s.count = Fintype.card P ∨ ∃ q, s.place q = .flipping) := by
  have hentered := h.rounds.entered_of_all hp hall
  refine ⟨fun q => by rw [hentered, hentered], ?_⟩
  rcases h.flipper with hf | hflipping
  · left
    rw [h.count]
    apply Rounds.card_arrived_of_all
    intro q
    rw [hentered q]
    exact congrArg (· + 1) hf.symm
  · exact .inr hflipping

theorem goto {c : Place α} (hc : Placed phases s.rounds p c)
    (hu : c.closing → ∀ q, ¬(s.place q).closing) (hp : s.place p ≠ .flipping) :
    (s.goto p c).Invariant phases := by
  refine ⟨h.rounds, h.count, h.phase, ?_, ?_, ?_⟩
  · intro q
    by_cases hq : q = p
    · subst hq
      simpa [Sense.goto] using hc
    · simpa [Sense.goto, hq] using h.placed q
  · intro q r hcq hcr
    by_cases hq : q = p
    · by_cases hr : r = p
      · rw [hq, hr]
      · simp only [Sense.goto, hq, Function.update_self, Function.update_of_ne hr] at hcq hcr
        exact absurd hcr (hu hcq r)
    · by_cases hr : r = p
      · simp only [Sense.goto, hr, Function.update_self, Function.update_of_ne hq] at hcq hcr
        exact absurd hcq (hu hcr q)
      · simp only [Sense.goto, Function.update_of_ne hq, Function.update_of_ne hr] at hcq hcr
        exact h.unique q r hcq hcr
  · rcases h.flipper with hf | ⟨q, hq⟩
    · exact .inl hf
    · have hqp : q ≠ p := by
        rintro rfl
        exact hp hq
      exact .inr ⟨q, by simpa [Sense.goto, hqp] using hq⟩

omit [DecidableEq P] in
theorem not_closing {q : P} (hp : (s.place p).closing) (hq : q ≠ p) : ¬(s.place q).closing :=
  fun hc => hq (h.unique q p hc hp)

theorem unique_goto {c : Place α} (hu : c.closing → (s.place p).closing) :
    ∀ q r, ((s.goto p c).place q).closing → ((s.goto p c).place r).closing → q = r := by
  have hold : ∀ q, ((s.goto p c).place q).closing → (s.place q).closing := by
    intro q hc
    by_cases hq : q = p
    · subst hq
      simp only [Sense.goto, Function.update_self] at hc
      exact hu hc
    · simpa [Sense.goto, hq] using hc
  intro q r hq hr
  exact h.unique q r (hold q hq) (hold r hr)

omit [DecidableEq P] in
/-- While a party may leave, or is outside, nobody is closing the round. -/
theorem not_closing_of_le (hp : s.rounds.entered p ≤ s.rounds.flips) (q : P) :
    ¬(s.place q).closing := by
  intro hc
  have hq := h.placed q
  cases hplace : s.place q <;> rw [hplace] at hc hq
  case resetting =>
    have := hq.2.2 p
    omega
  case flipping =>
    have := hq.2
    have := h.rounds.resets_le_entered p
    omega
  all_goals exact hc

omit [DecidableEq P] in
theorem resets_of_not_closing (hq : ∀ q, ¬(s.place q).closing) :
    s.rounds.resets = s.rounds.flips := by
  rcases h.flipper with hf | ⟨q, hf⟩
  · exact hf
  · exact absurd (hf ▸ trivial) (hq q)

omit [DecidableEq P] in
/-- A party that may enter a round finds the counter at the number of those that have. -/
theorem count_of_outside (hp : s.place p = .outside) : s.count =
    (Finset.univ.filter fun q => s.rounds.entered q = s.rounds.left p + 1).card := by
  have hout : Placed phases s.rounds p .outside := hp ▸ h.placed p
  have hleft : s.rounds.left p = s.rounds.resets :=
    hout.symm.trans (h.rounds.entered_of_outside hout).1
  rw [h.count, hleft]
  rfl

theorem arrive {m : α} (hp : s.place p = .reading m) :
    Invariant phases { s.goto p (.waiting m) with
      count := s.count + 1
      rounds := s.rounds.arrive p } := by
  obtain ⟨he, hm⟩ : Placed phases s.rounds p (.reading m) := hp ▸ h.placed p
  obtain ⟨hresets, hflips⟩ := h.rounds.entered_of_outside he
  have hquiet := h.not_closing_of_le (p := p) (by omega)
  refine ⟨h.rounds.arrive he, ?_, h.phase, ?_, h.unique_goto (fun hc => hc.elim), .inl hflips⟩
  · rw [h.rounds.card_arrived_arrive he]
    exact congrArg (· + 1) h.count
  · intro q
    by_cases hq : q = p
    · subst hq
      simp only [Sense.goto, Function.update_self]
      refine ⟨by simp [Rounds.arrive, Visits.enter, he], ?_⟩
      rw [hm]
      exact congrArg phases (by simp only [Rounds.arrive, Visits.enter]; omega)
    · simp only [Sense.goto, Function.update_of_ne hq]
      exact (h.placed q).congr (hquiet q) (by simp [Rounds.arrive, Visits.enter, hq]) rfl le_rfl
        fun _ => rfl

theorem elect {m : α} (hp : s.place p = .waiting m) (hcount : s.count = Fintype.card P)
    (hnone : ∀ q, ¬(s.place q).closing) : (s.goto p .resetting).Invariant phases := by
  obtain ⟨he, -⟩ : Placed phases s.rounds p (.waiting m) := hp ▸ h.placed p
  have hall := Rounds.entered_of_card (h.count.symm.trans hcount)
  have hflips : s.rounds.resets = s.rounds.flips := by
    have := h.rounds.left_le_flips p
    have := h.rounds.flips_le
    have := hall p
    omega
  exact h.goto ⟨he, hflips, fun q => hflips ▸ hall q⟩ (fun _ => hnone) (by simp [hp])

omit [DecidableEq P] in
theorem entered_of_flipping (hp : s.place p = .flipping) :
    s.rounds.entered p = s.rounds.flips + 1 := by
  obtain ⟨he, hflips⟩ : Placed phases s.rounds p .flipping := hp ▸ h.placed p
  have := h.rounds.left_le_flips p
  have := h.rounds.resets_le_entered p
  omega

theorem reset (hp : s.place p = .resetting) :
    Invariant phases { s.goto p .flipping with
      count := 0
      rounds := s.rounds.reset } := by
  obtain ⟨he, hflips, hall⟩ : Placed phases s.rounds p .resetting := hp ▸ h.placed p
  have hclosing : (s.place p).closing := hp ▸ trivial
  refine ⟨h.rounds.reset hflips hall, ?_, h.phase, ?_, h.unique_goto fun _ => hclosing,
    .inr ⟨p, by simp [Sense.goto]⟩⟩
  · exact (Rounds.card_arrived_reset fun q => hflips ▸ hall q).symm
  · intro q
    by_cases hq : q = p
    · subst hq
      simp only [Sense.goto, Function.update_self]
      exact ⟨he, congrArg (· + 1) hflips⟩
    · simp only [Sense.goto, Function.update_of_ne hq]
      exact (h.placed q).congr (h.not_closing hclosing hq) rfl rfl le_rfl fun _ => rfl

theorem flip (hp : s.place p = .flipping) (hphases : ∀ k, phases (k + 1) = toggle (phases k)) :
    Invariant phases { s.goto p .released with
      phase := toggle s.phase
      rounds := s.rounds.flip p } := by
  obtain ⟨he, hflips⟩ : Placed phases s.rounds p .flipping := hp ▸ h.placed p
  have hclosing : (s.place p).closing := hp ▸ trivial
  have hlast := h.entered_of_flipping hp
  refine ⟨h.rounds.flip hflips hlast, h.count, ?_, ?_, h.unique_goto (fun hc => hc.elim),
    .inl hflips⟩
  · exact (congrArg toggle h.phase).trans (hphases _).symm
  · intro q
    by_cases hq : q = p
    · subst hq
      simp only [Sense.goto, Function.update_self]
      exact ⟨he, hlast.le⟩
    · simp only [Sense.goto, Function.update_of_ne hq]
      refine (h.placed q).congr (h.not_closing hclosing hq) rfl rfl (Nat.le_succ _) ?_
      intro hout
      have := h.rounds.entered_of_outside hout
      omega

theorem depart (hp : s.place p = .released) :
    Invariant phases { s.goto p .outside with rounds := s.rounds.depart p } := by
  obtain ⟨he, hflips⟩ : Placed phases s.rounds p .released := hp ▸ h.placed p
  have hquiet := h.not_closing_of_le hflips
  refine ⟨h.rounds.depart he hflips, h.count, h.phase, ?_, h.unique_goto (fun hc => hc.elim),
    .inl (h.resets_of_not_closing hquiet)⟩
  intro q
  by_cases hq : q = p
  · subst hq
    simp only [Sense.goto, Function.update_self]
    simp [Placed, Rounds.depart, Visits.leave, he]
  · simp only [Sense.goto, Function.update_of_ne hq]
    exact (h.placed q).congr (hquiet q) rfl (by simp [Rounds.depart, Visits.leave, hq]) le_rfl
      fun _ => rfl

omit [DecidableEq P] in
/-- Past a changed phase, the round of a waiting party has been flipped. -/
theorem released_of_ne {m : α} (hp : s.place p = .waiting m) (hm : m ≠ s.phase) :
    Placed phases s.rounds p .released := by
  obtain ⟨he, hphase⟩ : Placed phases s.rounds p (.waiting m) := hp ▸ h.placed p
  refine ⟨he, ?_⟩
  have hle := h.rounds.left_le_flips p
  by_contra hlt
  have hflips : s.rounds.left p = s.rounds.flips := by omega
  exact hm (by rw [hphase, hflips, h.phase])

omit [DecidableEq P] in
/-- A waiting party sees the phase changed exactly after the flip of its own round. -/
theorem ne_phase_iff {m : α} (hp : s.place p = .waiting m) (hne : ∀ k, phases (k + 1) ≠ phases k) :
    m ≠ s.phase ↔ s.rounds.flips = s.rounds.entered p := by
  obtain ⟨he, hphase⟩ : Placed phases s.rounds p (.waiting m) := hp ▸ h.placed p
  constructor
  · intro hm
    have := (h.released_of_ne hp hm).2
    have := h.rounds.flips_le
    have := h.rounds.resets_le_entered p
    omega
  · intro hf
    rw [hphase, h.phase, hf, he]
    exact (hne _).symm

omit [DecidableEq P] in
/-- A waiting party that sees its own phase is in a round that goes on. -/
theorem flips_lt {m : α} (hp : s.place p = .waiting m) (hne : ∀ k, phases (k + 1) ≠ phases k)
    (hm : m = s.phase) : s.rounds.flips < s.rounds.entered p := by
  have hflips : s.rounds.flips ≠ s.rounds.entered p :=
    fun hf => (h.ne_phase_iff hp hne).mpr hf hm
  have := h.rounds.flips_le
  have := h.rounds.resets_le_entered p
  omega

theorem move (hphases : ∀ k, phases (k + 1) = toggle (phases k)) (hm : Move toggle s t) :
    t.Invariant phases := by
  cases hm with
  | read p hp =>
    have hout : Placed phases s.rounds p .outside := hp ▸ h.placed p
    exact h.goto ⟨hout, h.phase⟩ (fun hc => hc.elim) (by simp [hp])
  | arrive p m hp => exact h.arrive hp
  | elect p m hp hcount hnone => exact h.elect hp hcount hnone
  | reset p hp => exact h.reset hp
  | flip p hp => exact h.flip hp hphases
  | release p m hp hm =>
    exact h.goto (h.released_of_ne hp hm) (fun hc => hc.elim) (by simp [hp])
  | depart p hp => exact h.depart hp

/-- The last to arrive may find the counter full in the same step. -/
theorem arrive_elect {m : α} (hp : s.place p = .reading m)
    (hcount : s.count + 1 = Fintype.card P) :
    ReflTransGen (Move toggle) s { s.goto p .resetting with
      count := s.count + 1
      rounds := s.rounds.arrive p } := by
  obtain ⟨he, -⟩ : Placed phases s.rounds p (.reading m) := hp ▸ h.placed p
  obtain ⟨hresets, hflips⟩ := h.rounds.entered_of_outside he
  have hquiet := h.not_closing_of_le (p := p) (by omega)
  have hnone : ∀ q, ¬((s.goto p (.waiting m)).place q).closing := by
    intro q
    by_cases hq : q = p
    · subst hq
      simp [Sense.goto, Place.closing]
    · simpa [Sense.goto, hq] using hquiet q
  have helect : Move toggle _ _ := .elect { s.goto p (.waiting m) with
    count := s.count + 1
    rounds := s.rounds.arrive p } p m (by simp [Sense.goto]) hcount hnone
  refine .tail (.single (.arrive s p m hp)) ?_
  simpa [Sense.goto] using helect

/-- The counter and the phase make a cyclic barrier. -/
theorem visits (hm : Move toggle s t) :
    ReflTransGen Visits.Step s.rounds.toVisits t.rounds.toVisits := by
  cases hm with
  | arrive p m hp =>
    obtain ⟨he, -⟩ : Placed phases s.rounds p (.reading m) := hp ▸ h.placed p
    exact .single (.enter _ p he)
  | depart p hp =>
    obtain ⟨he, hflips⟩ : Placed phases s.rounds p .released := hp ▸ h.placed p
    refine .single (.leave _ p fun q => ?_)
    have := h.rounds.flips_le
    have := h.rounds.resets_le_entered q
    omega
  | _ => exact .refl

theorem moves (hphases : ∀ k, phases (k + 1) = toggle (phases k))
    (hm : ReflTransGen (Move toggle) s t) :
    t.Invariant phases ∧ ReflTransGen Visits.Step s.rounds.toVisits t.rounds.toVisits := by
  induction hm with
  | refl => exact ⟨h, .refl⟩
  | tail _ hm ih => exact ⟨ih.1.move hphases hm, ih.2.trans (ih.1.visits hm)⟩

end Invariant

end Sense

end PFunc.CyclicBarrier
