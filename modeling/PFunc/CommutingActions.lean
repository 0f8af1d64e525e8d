import Mathlib.Logic.Function.Conjugate
import Mathlib.Data.List.Basic

/-!
# Interleaving programs whose actions commute

A program is a list of actions on a memory. Programs that run at the same time take turns; if
the actions of different ones commute, they may as well run one after the other.
-/

namespace PFunc.CommutingActions

variable {μ : Type*} {a : μ → μ} {as bs : List (μ → μ)}

def perform (as : List (μ → μ)) (m : μ) : μ := as.foldl (fun m a => a m) m

def Independent (as bs : List (μ → μ)) : Prop := ∀ a ∈ as, ∀ b ∈ bs, Function.Commute a b

theorem perform_append (as bs : List (μ → μ)) (m : μ) :
    perform (as ++ bs) m = perform bs (perform as m) :=
  List.foldl_append

theorem perform_commute (h : ∀ b ∈ bs, Function.Commute b a) (m : μ) :
    perform bs (a m) = a (perform bs m) := by
  induction bs generalizing m with
  | nil => rfl
  | cons b bs ih =>
    have hb : b (a m) = a (b m) := h b List.mem_cons_self m
    change perform bs (b (a m)) = _
    rw [hb, ih fun c hc => h c (List.mem_cons_of_mem _ hc)]
    rfl

/-- The next action of any program may come first. -/
theorem perform_flatten_first {before after : List (List (μ → μ))}
    (h : (before ++ (a :: as) :: after).Pairwise Independent) (m : μ) :
    perform (before ++ (a :: as) :: after).flatten m =
      perform (before ++ as :: after).flatten (a m) := by
  have hpast : ∀ b ∈ before.flatten, Function.Commute b a := by
    intro b hb
    obtain ⟨bs, hbs, hb⟩ := List.mem_flatten.mp hb
    have hind := (List.pairwise_append.mp h).2.2 bs hbs (a :: as) List.mem_cons_self
    exact hind b hb a List.mem_cons_self
  rw [List.flatten_append, List.flatten_cons, List.flatten_append, List.flatten_cons,
    perform_append, perform_append before.flatten, perform_commute hpast]
  rfl

/-- They stay pairwise independent when one of them has performed an action. -/
theorem pairwise_advance {before after : List (List (μ → μ))}
    (h : (before ++ (a :: as) :: after).Pairwise Independent) :
    (before ++ as :: after).Pairwise Independent := by
  have hsub : ∀ c ∈ as, c ∈ a :: as := fun c hc => List.mem_cons_of_mem _ hc
  rw [List.pairwise_append, List.pairwise_cons] at h ⊢
  obtain ⟨hbefore, ⟨hhead, hafter⟩, hcross⟩ := h
  refine ⟨hbefore, ⟨?_, hafter⟩, ?_⟩
  · intro bs hbs c hc
    exact hhead bs hbs c (hsub c hc)
  · intro bs hbs cs hcs b hb c hc
    rcases List.mem_cons.mp hcs with rfl | hcs
    · exact hcross bs hbs _ List.mem_cons_self b hb c (hsub c hc)
    · exact hcross bs hbs cs (List.mem_cons_of_mem _ hcs) b hb c hc

end PFunc.CommutingActions
