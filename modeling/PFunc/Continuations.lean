import PFunc.LabelledRuns

/-!
# Runs from any state

What the steps of a run keep, how long a run of disciplined steps can be, how often a run takes
transitions of one kind, refinements one after the other, and what a run can still lead to.
-/

namespace PFunc.LabelledRuns.System

universe u v

variable {σ : Type u} {α : Type v} {S : System σ α} {D : σ → α → Prop} {I J : σ → Prop}

/-- What holds at the start of a disciplined run and is kept by its steps holds at its end. -/
theorem run_keeps (hkeep : ∀ s a t, I s → D s a → S.step s a = some t → I t) {s t : σ}
    {as : List α} (hI : I s) (ha : S.Along (fun s a _ => D s a) s as) (ht : S.run s as = some t) :
    I t := by
  induction as generalizing s with
  | nil =>
    cases ht
    exact hI
  | cons a as ih =>
    cases hs : S.step s a with
    | none => simp [System.run, hs] at ht
    | some m =>
      obtain ⟨hd, ha⟩ := (along_cons hs).mp ha
      exact ih (hkeep s a m hI hd hs) ha (by simpa [System.run, hs] using ht)

/-- The same for a run without a discipline. -/
theorem run_keeps' (hkeep : ∀ s a t, I s → S.step s a = some t → I t) {s t : σ} {as : List α}
    (hI : I s) (ht : S.run s as = some t) : I t := by
  induction as generalizing s with
  | nil =>
    cases ht
    exact hI
  | cons a as ih =>
    cases hs : S.step s a with
    | none => simp [System.run, hs] at ht
    | some m => exact ih (hkeep s a m hI hs) (by simpa [System.run, hs] using ht)

/-- A disciplined run is no longer than a number that each of its steps lessens. -/
theorem length_le_of_along {f : σ → ℕ}
    (hkeep : ∀ s a t, I s → D s a → S.step s a = some t → I t ∧ f t < f s) {s t : σ} {as : List α}
    (hI : I s) (ha : S.Along (fun s a _ => D s a) s as) (ht : S.run s as = some t) :
    as.length + f t ≤ f s := by
  induction as generalizing s with
  | nil =>
    cases ht
    simp
  | cons a as ih =>
    cases hs : S.step s a with
    | none => simp [System.run, hs] at ht
    | some m =>
      obtain ⟨hd, ha⟩ := (along_cons hs).mp ha
      obtain ⟨hm, hlt⟩ := hkeep s a m hI hd hs
      have hle := ih hm ha (by simpa [System.run, hs] using ht)
      rw [List.length_cons]
      omega

/-- How many of the transitions that the labels take satisfy `P`. -/
def count (S : System σ α) (P : σ → α → σ → Bool) : σ → List α → ℕ
  | _, [] => 0
  | s, a :: as =>
    match S.step s a with
    | none => 0
    | some t => (if P s a t then 1 else 0) + count S P t as

/-- A run takes no more transitions of a kind than a number allows that each of them lessens and
that no other raises. -/
theorem count_le_of_along {P : σ → α → σ → Bool} {Q : σ → α → σ → Prop} {f : σ → ℕ}
    (hkeep : ∀ s a t, I s → Q s a t → S.step s a = some t →
      I t ∧ (if P s a t then 1 else 0) + f t ≤ f s) {s t : σ} {as : List α} (hI : I s)
    (ha : S.Along Q s as) (ht : S.run s as = some t) : I t ∧ S.count P s as + f t ≤ f s := by
  induction as generalizing s with
  | nil =>
    cases ht
    exact ⟨hI, by simp [count]⟩
  | cons a as ih =>
    cases hs : S.step s a with
    | none => simp [System.run, hs] at ht
    | some m =>
      obtain ⟨hq, ha⟩ := (along_cons hs).mp ha
      obtain ⟨hm, hle⟩ := hkeep s a m hI hq hs
      obtain ⟨hend, hrest⟩ := ih hm ha (by simpa [System.run, hs] using ht)
      refine ⟨hend, ?_⟩
      simp only [count, hs]
      omega

/-- If the steps with `Q` stay in `I`, the others out of it lead to `J`, and `J` is not left, then a
run has taken only steps with `Q` iff it is still in `I`. -/
theorem along_iff_of_fork {Q : σ → α → Prop} (hdisjoint : ∀ s, I s → ¬J s)
    (hgood : ∀ s a t, I s → Q s a → S.step s a = some t → I t)
    (hbad : ∀ s a t, I s → ¬Q s a → S.step s a = some t → J t)
    (hkeep : ∀ s a t, J s → S.step s a = some t → J t) {s t : σ} {as : List α} (hI : I s)
    (ht : S.run s as = some t) : (S.Along (fun s a _ => Q s a) s as ↔ I t) ∧ (I t ∨ J t) := by
  induction as generalizing s with
  | nil =>
    cases ht
    exact ⟨iff_of_true trivial hI, .inl hI⟩
  | cons a as ih =>
    cases hs : S.step s a with
    | none => simp [System.run, hs] at ht
    | some m =>
      have hrest : S.run m as = some t := by simpa [System.run, hs] using ht
      rw [along_cons hs]
      by_cases hq : Q s a
      · obtain ⟨hiff, hcase⟩ := ih (hgood s a m hI hq hs) hrest
        exact ⟨by rw [← hiff, and_iff_right hq], hcase⟩
      · have hend := run_keeps' hkeep (hbad s a m hI hq hs) hrest
        exact ⟨iff_of_false (fun h => hq h.1) fun hi => hdisjoint t hi hend, .inr hend⟩

/-- A refinement of a relation that is refined in turn, between states that the first
refinement reaches. -/
theorem Refines.trans {τ υ : Type*} {A : τ → τ → Prop} {B : υ → υ → Prop} {a₀ : τ} {b₀ : υ}
    {view : σ → τ} {J : τ → Prop} (h : S.Refines D A a₀ view) (view' : τ → υ)
    (h₀ : J a₀) (hJ : ∀ x y, J x → A x y → J y) (hinitial : view' a₀ = b₀)
    (hstep : ∀ x y, J x → A x y → Relation.ReflTransGen B (view' x) (view' y)) :
    S.Refines D B b₀ fun s => view' (view s) where
  initial := by rw [h.initial, hinitial]
  step := by
    intro s a t hr hd hs
    have hmoves : ∀ x, J x → Relation.ReflTransGen A x (view t) →
        Relation.ReflTransGen B (view' x) (view' (view t)) := by
      intro x hx hxy
      induction hxy using Relation.ReflTransGen.head_induction_on with
      | refl => exact .refl
      | head hxy _ ih => exact (hstep _ _ hx hxy).trans (ih (hJ _ _ hx hxy))
    exact hmoves (view s) (h.invariant h₀ hJ hr) (h.step s a t hr hd hs)

/-- A state with the property `P` can be reached by labels that meet the discipline `D`. -/
inductive Leads (S : System σ α) (D : σ → α → Prop) (P : σ → Prop) : σ → Prop
  | here {s : σ} (h : P s) : Leads S D P s
  | step {s t : σ} {a : α} (hd : D s a) (hs : S.step s a = some t) (h : Leads S D P t) :
      Leads S D P s

theorem Leads.trans {D E : σ → α → Prop} {P Q : σ → Prop} (hED : ∀ s a, E s a → D s a) {s : σ}
    (hr : S.Reachable D s) (h : S.Leads E P s)
    (hPQ : ∀ t, S.Reachable D t → P t → S.Leads E Q t) : S.Leads E Q s := by
  induction h with
  | here hp => exact hPQ _ hr hp
  | step hd hs _ ih => exact .step hd hs (ih (hr.step (hED _ _ hd) hs))

/-- It is enough that from every other state a smaller one can be reached. -/
theorem Leads.of_measure {D E : σ → α → Prop} {P : σ → Prop} (hED : ∀ s a, E s a → D s a)
    (f : σ → ℕ) (hless : ∀ s, S.Reachable D s → ¬P s → S.Leads E (fun t => f t < f s) s) {s : σ}
    (hr : S.Reachable D s) : S.Leads E P s := by
  induction hn : f s using Nat.strongRecOn generalizing s with
  | ind n ih =>
    by_cases hp : P s
    · exact .here hp
    · exact (hless s hr hp).trans hED hr fun t ht hlt => ih (f t) (hn ▸ hlt) ht rfl

end PFunc.LabelledRuns.System
