import Mathlib.Logic.Relation

/-!
# Runs that are observed

A partial labelled step gives an observation besides the next state. Two states from which the
same labels give the same observations cannot be told apart; it is enough that what each step
does is a function of what a map keeps of the state.
-/

namespace PFunc.ObservedRuns

universe u v w

variable {σ : Type u} {α : Type v} {β : Type w} {ν : Type*} (step : σ → α → Option (σ × β))

/-- The observations along the labels and the last state; `none` if a label is disabled. -/
def observe : σ → List α → Option (List β × σ)
  | s, [] => some ([], s)
  | s, a :: as => (step s a).bind fun r => (observe r.1 as).map fun q => (r.2 :: q.1, q.2)

/-- The observations alone. -/
def trace (s : σ) (as : List α) : Option (List β) := (observe step s as).map Prod.fst

/-- No labels tell the states apart. -/
def Indistinguishable (s t : σ) : Prop := ∀ as, trace step s as = trace step t as

/-- What a step observes, and what `view` keeps of its result, depend on `view` alone. -/
def Respects (view : σ → ν) : Prop :=
  ∀ s t a, view s = view t →
    (step s a).map (Prod.map view id) = (step t a).map (Prod.map view id)

variable {step} {s t : σ} {a : α} {as : List α}

theorem trace_cons :
    trace step s (a :: as) = (step s a).bind fun r => (trace step r.1 as).map (r.2 :: ·) := by
  unfold trace
  rw [observe]
  cases step s a with
  | none => rfl
  | some r =>
    simp only [Option.bind_some, Option.map_map]
    rfl

/-- Step for step, the states keep the same view. -/
theorem Respects.indistinguishable {view : σ → ν} (h : Respects step view)
    (hview : view s = view t) : Indistinguishable step s t := by
  intro as
  induction as generalizing s t with
  | nil => rfl
  | cons a as ih =>
    rw [trace_cons, trace_cons]
    have hstep := h s t a hview
    cases hs : step s a with
    | none =>
      rw [hs] at hstep
      rw [Option.map_eq_none_iff.mp hstep.symm]
    | some r =>
      cases ht : step t a with
      | none =>
        rw [hs, ht] at hstep
        cases hstep
      | some q =>
        rw [hs, ht] at hstep
        obtain ⟨hnext, hobs⟩ := Prod.mk.inj (Option.some.inj hstep)
        change r.2 = q.2 at hobs
        simp only [Option.bind_some]
        rw [ih hnext, hobs]

/-- A step may be taken in the kept part, if that is a state again. -/
theorem respects_of_normal {normal : σ → σ} (h : ∀ s a,
    (step (normal s) a).map (Prod.map normal id) = (step s a).map (Prod.map normal id)) :
    Respects step normal := by
  intro s t a hview
  rw [← h s, ← h t, hview]

end PFunc.ObservedRuns
