import PFunc.LabelledRuns
import PFunc.Space1D
import PFunc.CommutingActions
import Mathlib.Algebra.Ring.Nat

/-!
# `parallel_for`

Any worker may take a queued task at any time, and the calls of the functor on different
spaces take turns action by action.
-/

namespace PFunc.ParallelFor

open LabelledRuns CommutingActions

variable {B : Size} {μ : Type}

/-- How far `operator()` of one object has got. The object's `space` is kept beside it, since
the nested call of a frame overwrites it. -/
inductive Call (B : Size) (μ : Type) where
  /-- spawned -/
  | queued
  /-- about to test `can_split` -/
  | entering
  /-- inside `func` -/
  | calling (actions : List (μ → μ))
  /-- in the nested call, or past it in `wait_all`. The task is the spawned one, with its own
  object. -/
  | frame (nested : Call B μ) (space : Space1D B) (task : Call B μ)
  | returned

inductive Event (B : Size) (μ : Type) where
  | silent
  /-- `func` is applied to a space -/
  | apply (space : Space1D B)
  /-- an action of `func` -/
  | act (a : μ → μ)

/-- Into the nested call or into the task of a frame. -/
inductive Side where
  | nested
  | task
  deriving DecidableEq

abbrev Functor (B : Size) (μ : Type) := Space1D B → List (μ → μ)

/-- The innermost call at the end of the path moves. -/
def advance (func : Functor B μ) :
    List Side → Space1D B → Call B μ → Option (Space1D B × Call B μ × Event B μ)
  | [], space, .queued => some (space, .entering, .silent)
  | [], space, .entering =>
    if space.canSplit then
      match space.split with
      | [first, other] => some (first, .frame .entering other .queued, .silent)
      | _ => none
    else some (space, .calling (func space), .apply space)
  | [], space, .calling (a :: actions) => some (space, .calling actions, .act a)
  | [], space, .calling [] => some (space, .returned, .silent)
  | [], space, .frame .returned _ .returned => some (space, .returned, .silent)
  | .nested :: path, space, .frame nested other task =>
    (advance func path space nested).map fun r => (r.1, .frame r.2.1 other task, r.2.2)
  | .task :: path, space, .frame nested other task =>
    (advance func path other task).map fun r => (space, .frame nested r.1 r.2.1, r.2.2)
  | _, _, _ => none

structure State (B : Size) (μ : Type) where
  space : Space1D B
  call : Call B μ
  /-- the spaces that `func` was applied to -/
  log : List (Space1D B)
  memory : μ

def Event.spaces : Event B μ → List (Space1D B)
  | .apply space => [space]
  | _ => []

def Event.actions : Event B μ → List (μ → μ)
  | .act a => [a]
  | _ => []

def step (func : Functor B μ) (s : State B μ) (path : List Side) : Option (State B μ) :=
  (advance func path s.space s.call).map fun r =>
    ⟨r.1, r.2.1, s.log ++ r.2.2.spaces, perform r.2.2.actions s.memory⟩

/-- `operator()` of an object for the space has been called. -/
def system (func : Functor B μ) (space : Space1D B) (m : μ) : System (State B μ) (List Side) where
  initial := ⟨space, .entering, [], m⟩
  step := step func

/-! ### What a step can do -/

variable {func : Functor B μ} {space space' : Space1D B} {call call' : Call B μ} {ev : Event B μ}

inductive Advance (func : Functor B μ) :
    Space1D B → Call B μ → Space1D B → Call B μ → Event B μ → Prop
  | start {space : Space1D B} : Advance func space .queued space .entering .silent
  | split {space : Space1D B} (h : space.canSplit) :
      Advance func space .entering space.left (.frame .entering space.right .queued) .silent
  | apply {space : Space1D B} (h : ¬space.canSplit) :
      Advance func space .entering space (.calling (func space)) (.apply space)
  | act {space : Space1D B} {a : μ → μ} {actions : List (μ → μ)} :
      Advance func space (.calling (a :: actions)) space (.calling actions) (.act a)
  | finish {space : Space1D B} : Advance func space (.calling []) space .returned .silent
  | join {space other : Space1D B} :
      Advance func space (.frame .returned other .returned) space .returned .silent
  | nested {space space' other : Space1D B} {nested nested' task : Call B μ} {ev : Event B μ}
      (h : Advance func space nested space' nested' ev) :
      Advance func space (.frame nested other task) space' (.frame nested' other task) ev
  | task {space other other' : Space1D B} {nested task task' : Call B μ} {ev : Event B μ}
      (h : Advance func other task other' task' ev) :
      Advance func space (.frame nested other task) space (.frame nested other' task') ev

theorem advance_of_eq_some {path : List Side} {r : Space1D B × Call B μ × Event B μ}
    (h : advance func path space call = some r) : Advance func space call r.1 r.2.1 r.2.2 := by
  induction path generalizing space call r with
  | nil =>
    cases call with
    | queued =>
      cases h
      exact .start
    | entering =>
      simp only [advance, Space1D.split] at h
      split at h
      · rename_i hsplit
        cases h
        exact .split hsplit
      · rename_i hsplit
        cases h
        exact .apply hsplit
    | calling actions =>
      cases actions with
      | nil =>
        cases h
        exact .finish
      | cons a actions =>
        cases h
        exact .act
    | frame nested other task =>
      cases nested <;> cases task <;> cases h
      exact .join
    | returned => cases h
  | cons side path ih =>
    cases call with
    | frame nested other task =>
      cases side with
      | nested =>
        obtain ⟨r', hr', rfl⟩ := Option.map_eq_some_iff.mp h
        exact .nested (ih hr')
      | task =>
        obtain ⟨r', hr', rfl⟩ := Option.map_eq_some_iff.mp h
        exact .task (ih hr')
    | queued => cases side <;> cases h
    | entering => cases side <;> cases h
    | calling => cases side <;> cases h
    | returned => cases side <;> cases h

/-- Unless the call has returned, something can move. -/
theorem exists_advance (func : Functor B μ) (space : Space1D B) (h : call ≠ .returned) :
    ∃ path, (advance func path space call).isSome := by
  induction call generalizing space with
  | queued => exact ⟨[], rfl⟩
  | entering =>
    refine ⟨[], ?_⟩
    simp only [advance, Space1D.split]
    split <;> rfl
  | calling actions =>
    refine ⟨[], ?_⟩
    cases actions <;> rfl
  | frame nested other task ihn iht =>
    by_cases hn : nested = .returned
    · by_cases ht : task = .returned
      · subst hn ht
        exact ⟨[], rfl⟩
      · obtain ⟨path, hpath⟩ := iht other ht
        exact ⟨.task :: path, by simpa [advance] using hpath⟩
    · obtain ⟨path, hpath⟩ := ihn space hn
      exact ⟨.nested :: path, by simpa [advance] using hpath⟩
  | returned => exact absurd rfl h

/-! ### The leaves that `func` has still to be applied to -/

def waiting (hB : 0 < B) : Space1D B → Call B μ → List (Space1D B)
  | space, .queued => space.leaves hB
  | space, .entering => space.leaves hB
  | space, .frame nested other task => waiting hB space nested ++ waiting hB other task
  | _, .calling _ => []
  | _, .returned => []

theorem waiting_advance (hB : 0 < B) (h : Advance func space call space' call' ev) :
    (ev.spaces ++ waiting hB space' call').Perm (waiting hB space call) := by
  induction h with
  | start => exact .refl _
  | split hsplit =>
    simp only [waiting, Space1D.leaves_split hB hsplit]
    exact .refl _
  | apply hsplit =>
    simp only [waiting, Space1D.leaves_of_not_canSplit hB hsplit]
    exact .refl _
  | act => exact .refl _
  | finish => exact .refl _
  | join => exact .refl _
  | nested _ ih =>
    simp only [waiting, ← List.append_assoc]
    exact ih.append_right _
  | task _ ih => exact (List.perm_append_comm_assoc ..).trans (ih.append_left _)

/-! ### The actions that are left -/

/-- One program for each leaf, from left to right. -/
def remaining (hB : 0 < B) (func : Functor B μ) : Space1D B → Call B μ → List (List (μ → μ))
  | space, .queued => (space.leaves hB).map func
  | space, .entering => (space.leaves hB).map func
  | space, .frame nested other task => remaining hB func space nested ++ remaining hB func other task
  | _, .calling actions => [actions]
  | _, .returned => []

/-- Either one of the programs performs its next action, or at most an empty one goes. -/
def Shrinks (actions : List (μ → μ)) (programs programs' : List (List (μ → μ))) : Prop :=
  (actions = [] ∧ programs'.Sublist programs ∧ programs'.flatten = programs.flatten) ∨
  ∃ before a as after, actions = [a] ∧ programs = before ++ (a :: as) :: after ∧
    programs' = before ++ as :: after

theorem Shrinks.refl (programs : List (List (μ → μ))) : Shrinks [] programs programs :=
  .inl ⟨rfl, List.Sublist.refl _, rfl⟩

theorem Shrinks.append_right {actions : List (μ → μ)} {programs programs' : List (List (μ → μ))}
    (h : Shrinks actions programs programs') (ps : List (List (μ → μ))) :
    Shrinks actions (programs ++ ps) (programs' ++ ps) := by
  rcases h with ⟨rfl, hsub, hflat⟩ | ⟨before, a, as, after, rfl, rfl, rfl⟩
  · exact .inl ⟨rfl, hsub.append_right ps, by rw [List.flatten_append, List.flatten_append, hflat]⟩
  · exact .inr ⟨before, a, as, after ++ ps, rfl, by simp, by simp⟩

theorem Shrinks.append_left {actions : List (μ → μ)} {programs programs' : List (List (μ → μ))}
    (h : Shrinks actions programs programs') (ps : List (List (μ → μ))) :
    Shrinks actions (ps ++ programs) (ps ++ programs') := by
  rcases h with ⟨rfl, hsub, hflat⟩ | ⟨before, a, as, after, rfl, rfl, rfl⟩
  · exact .inl ⟨rfl, hsub.append_left ps, by rw [List.flatten_append, List.flatten_append, hflat]⟩
  · exact .inr ⟨ps ++ before, a, as, after, rfl, by simp, by simp⟩

theorem remaining_advance (hB : 0 < B) (h : Advance func space call space' call' ev) :
    Shrinks ev.actions (remaining hB func space call) (remaining hB func space' call') := by
  induction h with
  | start => exact .refl _
  | split hsplit =>
    simp only [remaining, Space1D.leaves_split hB hsplit, List.map_append]
    exact .refl _
  | apply hsplit =>
    simp only [remaining, Space1D.leaves_of_not_canSplit hB hsplit, List.map_cons, List.map_nil]
    exact .refl _
  | act => exact .inr ⟨[], _, _, [], rfl, rfl, rfl⟩
  | finish => exact .inl ⟨rfl, List.nil_sublist _, rfl⟩
  | join => exact .refl _
  | nested _ ih => exact ih.append_right _
  | task _ ih => exact ih.append_left _

theorem Shrinks.pairwise {actions : List (μ → μ)} {programs programs' : List (List (μ → μ))}
    (h : Shrinks actions programs programs') (hind : programs.Pairwise Independent) :
    programs'.Pairwise Independent := by
  rcases h with ⟨_, hsub, _⟩ | ⟨before, a, as, after, _, rfl, rfl⟩
  · exact hind.sublist hsub
  · exact pairwise_advance hind

/-- What the programs do one after the other does not change. -/
theorem Shrinks.perform {actions : List (μ → μ)} {programs programs' : List (List (μ → μ))}
    (h : Shrinks actions programs programs') (hind : programs.Pairwise Independent) (m : μ) :
    perform programs'.flatten (CommutingActions.perform actions m) =
      CommutingActions.perform programs.flatten m := by
  rcases h with ⟨rfl, _, hflat⟩ | ⟨before, a, as, after, rfl, rfl, rfl⟩
  · rw [hflat]
    rfl
  · exact (perform_flatten_first hind m).symm

/-! ### Every run ends -/

/-- Five for each leaf and its actions. -/
def weight (hB : 0 < B) (func : Functor B μ) (space : Space1D B) : ℕ :=
  ((space.leaves hB).map fun leaf => (func leaf).length + 5).sum

/-- A bound on the steps that are left. -/
def work (hB : 0 < B) (func : Functor B μ) : Space1D B → Call B μ → ℕ
  | space, .queued => weight hB func space - 2
  | space, .entering => weight hB func space - 3
  | space, .frame nested other task => work hB func space nested + work hB func other task + 1
  | _, .calling actions => actions.length + 1
  | _, .returned => 0

theorem weight_split (hB : 0 < B) (h : space.canSplit) :
    weight hB func space = weight hB func space.left + weight hB func space.right := by
  simp only [weight, Space1D.leaves_split hB h, List.map_append, List.sum_append]

theorem weight_of_not_canSplit (hB : 0 < B) (h : ¬space.canSplit) :
    weight hB func space = (func space).length + 5 := by
  simp [weight, Space1D.leaves_of_not_canSplit hB h]

theorem five_le_weight (hB : 0 < B) (func : Functor B μ) (space : Space1D B) :
    5 ≤ weight hB func space := by
  obtain ⟨leaf, leaves, hleaves⟩ := List.exists_cons_of_ne_nil (space.leaves_ne_nil hB)
  simp only [weight, hleaves, List.map_cons, List.sum_cons]
  omega

theorem work_advance (hB : 0 < B) (h : Advance func space call space' call' ev) :
    work hB func space' call' < work hB func space call := by
  induction h with
  | @start space =>
    have := five_le_weight hB func space
    simp only [work]
    omega
  | @split space hsplit =>
    have := five_le_weight hB func space.left
    have := five_le_weight hB func space.right
    simp only [work, weight_split hB hsplit]
    omega
  | @apply space hsplit =>
    simp only [work, weight_of_not_canSplit hB hsplit]
    omega
  | act => exact Nat.lt_succ_self _
  | finish => exact Nat.zero_lt_one
  | join => exact Nat.zero_lt_one
  | nested _ ih =>
    simp only [work]
    omega
  | task _ ih =>
    simp only [work]
    omega

/-! ### Runs -/

variable {s s' : State B μ} {path : List Side} {m : μ}

theorem step_cases (h : step func s path = some s') : ∃ ev,
    Advance func s.space s.call s'.space s'.call ev ∧ s'.log = s.log ++ ev.spaces ∧
      s'.memory = perform ev.actions s.memory := by
  obtain ⟨r, hr, rfl⟩ := Option.map_eq_some_iff.mp h
  exact ⟨r.2.2, advance_of_eq_some hr, rfl, rfl⟩

/-- The spaces that `func` was and will be applied to are the leaves. -/
def State.Applies (hB : 0 < B) (space : Space1D B) (s : State B μ) : Prop :=
  (s.log ++ waiting hB s.space s.call).Perm (space.leaves hB)

theorem applies_step (hB : 0 < B) (h : s.Applies hB space) (hs : step func s path = some s') :
    s'.Applies hB space := by
  obtain ⟨ev, hadv, hlog, _⟩ := step_cases hs
  unfold State.Applies
  rw [hlog, List.append_assoc]
  exact ((waiting_advance hB hadv).append_left s.log).trans h

/-- Running what is left, leaf by leaf, leads where the loop leads. -/
structure State.Residual (hB : 0 < B) (func : Functor B μ) (space : Space1D B) (m : μ)
    (s : State B μ) : Prop where
  independent : (remaining hB func s.space s.call).Pairwise Independent
  perform_eq : perform (remaining hB func s.space s.call).flatten s.memory =
    perform ((space.leaves hB).flatMap func) m

theorem residual_step (hB : 0 < B) (h : s.Residual hB func space m)
    (hs : step func s path = some s') : s'.Residual hB func space m := by
  obtain ⟨ev, hadv, _, hmemory⟩ := step_cases hs
  have hshrinks := remaining_advance hB hadv
  constructor
  · exact hshrinks.pairwise h.independent
  · rw [hmemory, hshrinks.perform h.independent, h.perform_eq]

/-- The functor does on disjoint sets of indices what commutes. -/
def CommutesOnDisjoint (func : Functor B μ) : Prop :=
  ∀ x y, x.spaceBegin ≤ x.spaceEnd → y.spaceBegin ≤ y.spaceEnd →
    x.indices.Disjoint y.indices → Independent (func x) (func y)

theorem residual_initial (hB : 0 < B) (hfunc : CommutesOnDisjoint func)
    (hspace : space.spaceBegin ≤ space.spaceEnd) (m : μ) :
    (system func space m).initial.Residual hB func space m where
  independent := by
    change ((space.leaves hB).map func).Pairwise Independent
    rw [List.pairwise_map]
    have hle := Space1D.le_of_mem_leaves hB hspace
    exact (Space1D.disjoint_leaves hB hspace).imp_of_mem fun hx hy h =>
      hfunc _ _ (hle _ hx) (hle _ hy) h
  perform_eq := by
    change perform ((space.leaves hB).map func).flatten m = _
    rw [List.flatMap_def]

/-- `func` was applied once to each leaf of the split tree of `[b, e)`, and what it did to the
memory is what the loop would have done. -/
structure State.Looped (hB : 0 < B) (func : Functor B μ) (b e : Size) (m : μ)
    (s : State B μ) : Prop where
  applied : s.log.Perm ((Space1D.new b e).leaves hB)
  covered : ∀ i, (s.log.flatMap Space1D.indices).count i =
    if b.toNat ≤ i ∧ i < e.toNat then 1 else 0
  leaves : CommutesOnDisjoint func →
    s.memory = perform (((Space1D.new b e).leaves hB).flatMap func) m
  loop : CommutesOnDisjoint func → ∀ body : ℕ → List (μ → μ),
    (∀ x, x.spaceBegin ≤ x.spaceEnd → func x = x.indices.flatMap body) →
      s.memory = perform ((Space1D.new (B := B) b e).indices.flatMap body) m

theorem looped_of_returned (hB : 0 < B) {b e : Size} (hbe : b ≤ e)
    (hr : (system func (.new b e) m).Reachable (fun _ _ => True) s) (hret : s.call = .returned) :
    s.Looped hB func b e m := by
  have happlied : s.log.Perm ((Space1D.new b e).leaves hB) := by
    have happlies : s.Applies hB (.new b e) := by
      apply hr.invariant
      · exact .refl _
      · intro s path s' h _ hs
        exact applies_step hB h hs
    unfold State.Applies at happlies
    rwa [hret, waiting, List.append_nil] at happlies
  have hindices := Space1D.flatMap_indices_leaves hB (s := .new b e) hbe
  have hleaves : CommutesOnDisjoint func →
      s.memory = perform (((Space1D.new b e).leaves hB).flatMap func) m := by
    intro hfunc
    have hresidual : s.Residual hB func (.new b e) m := by
      apply hr.invariant
      · exact residual_initial hB hfunc hbe m
      · intro s path s' h _ hs
        exact residual_step hB h hs
    have hperform := hresidual.perform_eq
    rwa [hret, remaining] at hperform
  refine ⟨happlied, ?_, hleaves, ?_⟩
  · intro i
    rw [(happlied.flatMap_right Space1D.indices).count_eq, hindices, Space1D.count_indices]
    rfl
  · intro hfunc body hbody
    have hleaf : ∀ x ∈ (Space1D.new b e).leaves hB, func x = x.indices.flatMap body :=
      fun x hx => hbody x (Space1D.le_of_mem_leaves hB hbe x hx)
    rw [hleaves hfunc, ← hindices, List.flatMap_assoc, List.flatMap_congr hleaf]

/-- Every run ends, it ends when the call returns, and then the loop is done. -/
theorem runs_loop (hB : 0 < B) (func : Functor B μ) {b e : Size} (hbe : b ≤ e) (m : μ) :
    (∀ s, (system func (.new b e) m).Reachable (fun _ _ => True) s →
      s.call = .returned ∧ s.Looped hB func b e m ∨
        s.call ≠ .returned ∧ ∃ path, (step func s path).isSome) ∧
    ∀ paths s, (system func (.new b e) m).run (system func (.new b e) m).initial paths = some s →
      paths.length ≤ weight hB func (.new b e) := by
  constructor
  · intro s hr
    by_cases hret : s.call = .returned
    · exact .inl ⟨hret, looped_of_returned hB hbe hr hret⟩
    · obtain ⟨path, hpath⟩ := exists_advance func s.space hret
      exact .inr ⟨hret, path, by simpa [step] using hpath⟩
  · intro paths s hrun
    have hle := System.length_le_of_run (f := fun s => work hB func s.space s.call)
      (fun s path s' hs => by
        obtain ⟨ev, hadv, _⟩ := step_cases hs
        exact work_advance hB hadv) hrun
    change paths.length + _ ≤ weight hB func (.new b e) - 3 at hle
    omega

/-- Adds the indices up. -/
def addIndices : Functor 1 ℕ := fun x => x.indices.map fun i m => m + i

theorem runs_loop_addIndices :
    (∀ s, (system addIndices (.new 3 6) 0).Reachable (fun _ _ => True) s →
      s.call = .returned ∧ s.Looped (B := 1) (by decide) addIndices 3 6 0 ∨
        s.call ≠ .returned ∧ ∃ path, (step addIndices s path).isSome) ∧
    ∀ paths s, (system addIndices (.new 3 6) 0).run (system addIndices (.new 3 6) 0).initial
        paths = some s → paths.length ≤ weight (B := 1) (by decide) addIndices (.new 3 6) :=
  runs_loop (by decide) addIndices (by decide) 0

/-- The spawned half is taken first. -/
example : (((system addIndices (.new 3 5) 0).run (system addIndices (.new 3 5) 0).initial
    [[], [.task], [.task], [.task], [.task], [.nested], [.nested], [.nested], []]).map fun s =>
      (s.log.map Space1D.indices, s.memory)) = some ([[4], [3]], 7) := by
  decide

end PFunc.ParallelFor
