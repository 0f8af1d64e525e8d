import Mathlib.Data.Nat.Notation
import Mathlib.Logic.Function.Basic
import Mathlib.Logic.Relation

/-!
# Runs of partial labelled steps

A step is a partial function of a state and a label. The label names the party
that moves and resolves every choice the step leaves open, so a run is a list
of labels and can be evaluated. A discipline restricts the labels that may be
taken in a state. What one disciplined step preserves holds of every state
that a disciplined run reaches.
-/

namespace PFunc.LabelledRuns

universe u v

/-- An initial state and a partial step for each label. -/
structure System (σ : Type u) (α : Type v) where
  initial : σ
  step : σ → α → Option σ

namespace System

variable {σ : Type u} {α : Type v} (S : System σ α)

/-- Execute the labels in order; `none` as soon as one of them is disabled. -/
def run : σ → List α → Option σ
  | s, [] => some s
  | s, a :: as => (S.step s a).bind fun t => run t as

/-- The state after the labels, or the initial state if one of them is disabled. -/
def final (as : List α) : σ := (S.run S.initial as).getD S.initial

/-- The states reached by steps that all meet the discipline `D`. -/
inductive Reachable (D : σ → α → Prop) : σ → Prop
  | initial : Reachable D S.initial
  | step {s t : σ} {a : α} (hr : Reachable D s) (hd : D s a) (hs : S.step s a = some t) :
      Reachable D t

/-- Each disciplined step out of a reachable state is seen, through `view`, as moves of the
abstract relation `A`, which starts in `a₀`. -/
structure Refines {τ : Type*} (D : σ → α → Prop) (A : τ → τ → Prop) (a₀ : τ)
    (view : σ → τ) : Prop where
  initial : view S.initial = a₀
  step : ∀ s a t, S.Reachable D s → D s a → S.step s a = some t →
    Relation.ReflTransGen A (view s) (view t)

/-- Every label is enabled in turn, and every transition taken satisfies `P`. -/
def Along (P : σ → α → σ → Prop) : σ → List α → Prop
  | _, [] => True
  | s, a :: as => match S.step s a with
    | none => False
    | some t => P s a t ∧ Along P t as

instance decidableAlong (P : σ → α → σ → Prop) [∀ s a t, Decidable (P s a t)] :
    ∀ s as, Decidable (S.Along P s as)
  | _, [] => .isTrue trivial
  | s, a :: as => by
    unfold Along
    cases S.step s a with
    | none => exact .isFalse id
    | some t =>
      have := decidableAlong P t as
      exact inferInstanceAs (Decidable (P s a t ∧ S.Along P t as))

variable {S} {D E : σ → α → Prop} {P Q : σ → α → σ → Prop} {I : σ → Prop}

theorem along_cons {s t : σ} {a : α} {as : List α} (hs : S.step s a = some t) :
    S.Along P s (a :: as) ↔ P s a t ∧ S.Along P t as := by
  simp only [Along, hs]

theorem Reachable.mono (h : ∀ s a, D s a → E s a) {s : σ} (hr : S.Reachable D s) :
    S.Reachable E s := by
  induction hr with
  | initial => exact .initial
  | step _ hd hs ih => exact .step ih (h _ _ hd) hs

/-- What holds initially and is kept by each disciplined step holds throughout. -/
theorem Reachable.invariant (h₀ : I S.initial)
    (h₁ : ∀ s a t, I s → D s a → S.step s a = some t → I t) {s : σ} (hr : S.Reachable D s) :
    I s := by
  induction hr with
  | initial => exact h₀
  | step _ hd hs ih => exact h₁ _ _ _ ih hd hs

/-- As `Reachable.invariant`, where the step may also use that its source is reachable. -/
theorem Reachable.invariant' (h₀ : I S.initial)
    (h₁ : ∀ s a t, S.Reachable D s → I s → D s a → S.step s a = some t → I t) {s : σ}
    (hr : S.Reachable D s) : I s := by
  induction hr with
  | initial => exact h₀
  | step hr hd hs ih => exact h₁ _ _ _ hr ih hd hs

/-- What the abstract moves keep holds of the views of all reachable states. -/
theorem Refines.invariant {τ : Type*} {A : τ → τ → Prop} {a₀ : τ} {view : σ → τ}
    {J : τ → Prop} (h : S.Refines D A a₀ view) (h₀ : J a₀) (h₁ : ∀ x y, J x → A x y → J y) {s : σ}
    (hr : S.Reachable D s) : J (view s) := by
  apply hr.invariant' (I := fun s => J (view s))
  · rw [h.initial]
    exact h₀
  · intro s a t hr hj hd hs
    exact (h.step s a t hr hd hs).head_induction_on (motive := fun x _ => J x → J (view t)) id
      (fun hxy _ ih hx => ih (h₁ _ _ hx hxy)) hj

theorem Reachable.run {s t : σ} {as : List α} (hr : S.Reachable D s)
    (ha : S.Along (fun s a _ => D s a) s as) (ht : S.run s as = some t) : S.Reachable D t := by
  induction as generalizing s with
  | nil =>
    cases ht
    exact hr
  | cons a as ih =>
    cases hs : S.step s a with
    | none => simp [System.run, hs] at ht
    | some m =>
      obtain ⟨hd, ha⟩ := (along_cons hs).mp ha
      exact ih (hr.step hd hs) ha (by simpa [System.run, hs] using ht)

theorem run_of_along {s : σ} {as : List α} (ha : S.Along P s as) :
    ∃ t, S.run s as = some t := by
  induction as generalizing s with
  | nil => exact ⟨s, rfl⟩
  | cons a as ih =>
    cases hs : S.step s a with
    | none => simp [Along, hs] at ha
    | some m =>
      obtain ⟨t, ht⟩ := ih ((along_cons hs).mp ha).2
      exact ⟨t, by simpa [System.run, hs] using ht⟩

/-- The last state of a disciplined run from the initial state is reachable. -/
theorem reachable_final {as : List α} (ha : S.Along (fun s a _ => D s a) S.initial as) :
    S.Reachable D (S.final as) := by
  obtain ⟨t, ht⟩ := run_of_along ha
  have hf : S.final as = t := by simp [final, ht]
  exact hf ▸ Reachable.initial.run ha ht

theorem run_append (s : σ) (as bs : List α) :
    S.run s (as ++ bs) = (S.run s as).bind fun t => S.run t bs := by
  induction as generalizing s with
  | nil => rfl
  | cons a as ih =>
    cases hs : S.step s a with
    | none => simp [System.run, hs]
    | some m => simp [System.run, hs, ih]

/-- A run is no longer than a number that each step lessens. -/
theorem length_le_of_run {f : σ → ℕ} (h : ∀ s a t, S.step s a = some t → f t < f s)
    {s t : σ} {as : List α} (ht : S.run s as = some t) : as.length + f t ≤ f s := by
  induction as generalizing s with
  | nil =>
    cases ht
    simp
  | cons a as ih =>
    cases hs : S.step s a with
    | none => simp [System.run, hs] at ht
    | some m =>
      have hle := ih (s := m) (by simpa [System.run, hs] using ht)
      have hlt := h s a m hs
      rw [List.length_cons]
      omega

/-- If each step lessens a number and only states with the property `P` are stuck, such a state
is reached from everywhere; what every step keeps is kept on the way. -/
theorem Reachable.exists_ending {f : σ → ℕ} {J : σ → Prop}
    (hlt : ∀ s a t, S.Reachable D s → D s a → S.step s a = some t → f t < f s)
    (hmove : ∀ s, S.Reachable D s → ¬I s → ∃ a t, D s a ∧ S.step s a = some t)
    (hkeep : ∀ s a t, S.Reachable D s → J s → S.step s a = some t → J t)
    {s : σ} (hr : S.Reachable D s) (hj : J s) : ∃ t, S.Reachable D t ∧ I t ∧ J t := by
  induction hn : f s using Nat.strongRecOn generalizing s with
  | ind n ih =>
    by_cases hi : I s
    · exact ⟨s, hr, hi, hj⟩
    · obtain ⟨a, t, hd, hs⟩ := hmove s hr hi
      have hless : f t < n := hn ▸ hlt s a t hr hd hs
      exact ih (f t) hless (hr.step hd hs) (hkeep s a t hr hj hs) rfl

/-- Two transition properties hold along the same runs if they agree on each
step out of an invariant state, and the invariant survives the steps that have them. -/
theorem along_congr
    (h : ∀ s a t, I s → S.step s a = some t → (P s a t ↔ Q s a t) ∧ (Q s a t → I t))
    {s : σ} (hI : I s) (as : List α) : S.Along P s as ↔ S.Along Q s as := by
  induction as generalizing s with
  | nil => exact Iff.rfl
  | cons a as ih =>
    cases hs : S.step s a with
    | none => simp [Along, hs]
    | some t =>
      obtain ⟨hpq, hkeep⟩ := h s a t hI hs
      rw [along_cons hs, along_cons hs, hpq]
      exact and_congr_right fun hq => ih (hkeep hq)

/-- A property of the labels alone holds along a run iff the run exists and every label has it. -/
theorem along_labels {R : α → Prop} {s : σ} {as : List α} :
    S.Along (fun _ a _ => R a) s as ↔ (S.run s as).isSome ∧ ∀ a ∈ as, R a := by
  induction as generalizing s with
  | nil => simp [Along, System.run]
  | cons a as ih =>
    cases hs : S.step s a with
    | none => simp [Along, System.run, hs]
    | some t => simp [Along, System.run, hs, ih, and_left_comm]

end System

end PFunc.LabelledRuns
