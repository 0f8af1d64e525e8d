import PFunc.ParallelFor

/-!
# `parallel_reduce`

A call splits its functor before it spawns the second half, which accumulates in the fresh one;
the first half goes on with the functor of the call. When both are done the call joins the
second accumulation to the first. Nobody else uses a functor meanwhile, so an application is one
step here.
-/

namespace PFunc.ParallelReduce

open LabelledRuns ParallelFor

variable {B : Size} {α : Type}

/-- The operations of a `ReduceExecutable` on its accumulation. -/
structure ReduceExecutable (B : Size) (α : Type) where
  apply : Space1D B → α → α
  split : α → α
  join : α → α → α

/-- Applied to consecutive ranges, the functor continues its accumulation, and so does joining a
functor that was split off and applied to the second range. -/
structure ReduceExecutable.InOrder (func : ReduceExecutable B α) : Prop where
  continues : ∀ a b c, a ≤ b → b ≤ c → ∀ m,
    func.apply (.new b c) (func.apply (.new a b) m) = func.apply (.new a c) m
  joins : ∀ a b c, a ≤ b → b ≤ c → ∀ m m',
    func.join (func.apply (.new a b) m) (func.apply (.new b c) (func.split m')) =
      func.apply (.new b c) (func.apply (.new a b) m)

/-- How far `operator()` of one object has got. The object's `space` and the accumulation of its
`func` are kept beside it. -/
inductive Call (B : Size) (α : Type) where
  /-- spawned -/
  | queued
  /-- about to test `can_split` -/
  | entering
  /-- about to apply `func` -/
  | calling
  /-- in the nested call, or past it in `wait_all`. The task is the spawned one, with its own
  object and the functor that was split off. -/
  | frame (nested : Call B α) (space : Space1D B) (acc : α) (task : Call B α)
  | returned

/-- The innermost call at the end of the path moves. -/
def advance (func : ReduceExecutable B α) :
    List Side → Space1D B → α → Call B α → Option (Space1D B × α × Call B α)
  | [], space, acc, .queued => some (space, acc, .entering)
  | [], space, acc, .entering =>
    if space.canSplit then
      match space.split with
      | [first, other] => some (first, acc, .frame .entering other (func.split acc) .queued)
      | _ => none
    else some (space, acc, .calling)
  | [], space, acc, .calling => some (space, func.apply space acc, .returned)
  | [], space, acc, .frame .returned _ other .returned =>
    some (space, func.join acc other, .returned)
  | .nested :: path, space, acc, .frame nested space' acc' task =>
    (advance func path space acc nested).map fun r =>
      (r.1, r.2.1, .frame r.2.2 space' acc' task)
  | .task :: path, space, acc, .frame nested space' acc' task =>
    (advance func path space' acc' task).map fun r =>
      (space, acc, .frame nested r.1 r.2.1 r.2.2)
  | _, _, _, _ => none

structure State (B : Size) (α : Type) where
  space : Space1D B
  acc : α
  call : Call B α

def step (func : ReduceExecutable B α) (s : State B α) (path : List Side) : Option (State B α) :=
  (advance func path s.space s.acc s.call).map fun r => ⟨r.1, r.2.1, r.2.2⟩

/-- `operator()` of an object for the space has been called. -/
def system (func : ReduceExecutable B α) (space : Space1D B) (m : α) :
    System (State B α) (List Side) where
  initial := ⟨space, m, .entering⟩
  step := step func

/-! ### What a step can do -/

variable {func : ReduceExecutable B α} {space space' : Space1D B} {acc acc' m : α}
variable {call call' : Call B α}

inductive Advance (func : ReduceExecutable B α) :
    Space1D B → α → Call B α → Space1D B → α → Call B α → Prop
  | start {space : Space1D B} {acc : α} : Advance func space acc .queued space acc .entering
  | split {space : Space1D B} {acc : α} (h : space.canSplit) : Advance func space acc .entering
      space.left acc (.frame .entering space.right (func.split acc) .queued)
  | enter {space : Space1D B} {acc : α} (h : ¬space.canSplit) :
      Advance func space acc .entering space acc .calling
  | apply {space : Space1D B} {acc : α} :
      Advance func space acc .calling space (func.apply space acc) .returned
  | join {space other : Space1D B} {acc acc' : α} :
      Advance func space acc (.frame .returned other acc' .returned) space (func.join acc acc')
        .returned
  | nested {space space' other : Space1D B} {acc acc' otherAcc : α} {nested nested' task : Call B α}
      (h : Advance func space acc nested space' acc' nested') :
      Advance func space acc (.frame nested other otherAcc task)
        space' acc' (.frame nested' other otherAcc task)
  | task {space other other' : Space1D B} {acc otherAcc otherAcc' : α}
      {nested task task' : Call B α} (h : Advance func other otherAcc task other' otherAcc' task') :
      Advance func space acc (.frame nested other otherAcc task)
        space acc (.frame nested other' otherAcc' task')

theorem advance_of_eq_some {path : List Side} {r : Space1D B × α × Call B α}
    (h : advance func path space acc call = some r) :
    Advance func space acc call r.1 r.2.1 r.2.2 := by
  induction path generalizing space acc call r with
  | nil =>
    cases call with
    | queued =>
      cases h
      exact .start
    | entering =>
      simp only [advance, Space1D.split] at h
      split at h
      · rename_i hsplit
        cases h
        exact .split hsplit
      · rename_i hsplit
        cases h
        exact .enter hsplit
    | calling =>
      cases h
      exact .apply
    | frame nested other otherAcc task =>
      cases nested <;> cases task <;> cases h
      exact .join
    | returned => cases h
  | cons side path ih =>
    cases call with
    | frame nested other otherAcc task =>
      cases side with
      | nested =>
        obtain ⟨r', hr', rfl⟩ := Option.map_eq_some_iff.mp h
        exact .nested (ih hr')
      | task =>
        obtain ⟨r', hr', rfl⟩ := Option.map_eq_some_iff.mp h
        exact .task (ih hr')
    | queued => cases side <;> cases h
    | entering => cases side <;> cases h
    | calling => cases side <;> cases h
    | returned => cases side <;> cases h

/-- Unless the call has returned, something can move. -/
theorem exists_advance (func : ReduceExecutable B α) (space : Space1D B) (acc : α)
    (h : call ≠ .returned) : ∃ path, (advance func path space acc call).isSome := by
  induction call generalizing space acc with
  | queued => exact ⟨[], rfl⟩
  | entering =>
    refine ⟨[], ?_⟩
    simp only [advance, Space1D.split]
    split <;> rfl
  | calling => exact ⟨[], rfl⟩
  | frame nested other otherAcc task ihn iht =>
    by_cases hn : nested = .returned
    · by_cases ht : task = .returned
      · subst hn ht
        exact ⟨[], rfl⟩
      · obtain ⟨path, hpath⟩ := iht other otherAcc ht
        exact ⟨.task :: path, by simpa [advance] using hpath⟩
    · obtain ⟨path, hpath⟩ := ihn space acc hn
      exact ⟨.nested :: path, by simpa [advance] using hpath⟩
  | returned => exact absurd rfl h

/-! ### What the call will have accumulated -/

def outcome (func : ReduceExecutable B α) : Space1D B → α → Call B α → α
  | space, acc, .queued => func.apply space acc
  | space, acc, .entering => func.apply space acc
  | space, acc, .calling => func.apply space acc
  | space, acc, .frame nested other otherAcc task =>
    func.join (outcome func space acc nested) (outcome func other otherAcc task)
  | _, acc, .returned => acc

/-- The spaces that are still to be processed do not end before they begin. -/
def Ordered : Space1D B → Call B α → Prop
  | space, .queued => space.spaceBegin ≤ space.spaceEnd
  | space, .entering => space.spaceBegin ≤ space.spaceEnd
  | space, .calling => space.spaceBegin ≤ space.spaceEnd
  | space, .frame nested other _ task => Ordered space nested ∧ Ordered other task
  | _, .returned => True

theorem ordered_advance (h : Advance func space acc call space' acc' call')
    (ho : Ordered space call) : Ordered space' call' := by
  induction h with
  | start => exact ho
  | split hsplit => exact Space1D.left_le_right ho
  | enter hsplit => exact ho
  | apply => trivial
  | join => trivial
  | nested _ ih => exact ⟨ih ho.1, ho.2⟩
  | task _ ih => exact ⟨ho.1, ih ho.2⟩

theorem new_eq (space : Space1D B) : .new space.spaceBegin space.spaceEnd = space := by
  ext
  · rfl
  · rfl
  · simp only [Space1D.new, space.splittable_eq]

/-- Processing a space is processing its halves and joining. -/
theorem apply_split (hfunc : func.InOrder) (h : space.spaceBegin ≤ space.spaceEnd) (m : α) :
    func.join (func.apply space.left m) (func.apply space.right (func.split m)) =
      func.apply space m := by
  obtain ⟨hl, hr⟩ := Space1D.left_le_right h
  calc func.join (func.apply space.left m) (func.apply space.right (func.split m))
      = func.apply space.right (func.apply space.left m) := hfunc.joins _ _ _ hl hr m m
    _ = func.apply (.new space.spaceBegin space.spaceEnd) m := hfunc.continues _ _ _ hl hr m
    _ = func.apply space m := by rw [new_eq]

theorem outcome_advance (hfunc : func.InOrder)
    (h : Advance func space acc call space' acc' call') (ho : Ordered space call) :
    outcome func space' acc' call' = outcome func space acc call := by
  induction h with
  | start => rfl
  | split hsplit => exact apply_split hfunc ho _
  | enter hsplit => rfl
  | apply => rfl
  | join => rfl
  | nested _ ih => simp only [outcome, ih ho.1]
  | task _ ih => simp only [outcome, ih ho.2]

/-! ### Every run ends -/

/-- Five for each leaf. -/
def weight (hB : 0 < B) (space : Space1D B) : ℕ := 5 * (space.leaves hB).length

/-- A bound on the steps that are left. -/
def work (hB : 0 < B) : Space1D B → Call B α → ℕ
  | space, .queued => weight hB space - 2
  | space, .entering => weight hB space - 3
  | _, .calling => 1
  | space, .frame nested other _ task => work hB space nested + work hB other task + 1
  | _, .returned => 0

theorem weight_split (hB : 0 < B) (h : space.canSplit) :
    weight hB space = weight hB space.left + weight hB space.right := by
  simp only [weight, Space1D.leaves_split hB h, List.length_append]
  omega

theorem five_le_weight (hB : 0 < B) (space : Space1D B) : 5 ≤ weight hB space := by
  have hpos := List.length_pos_iff.mpr (space.leaves_ne_nil hB)
  simp only [weight]
  omega

theorem work_advance (hB : 0 < B) (h : Advance func space acc call space' acc' call') :
    work hB space' call' < work hB space call := by
  induction h with
  | @start space =>
    have := five_le_weight hB space
    simp only [work]
    omega
  | @split space acc hsplit =>
    have := five_le_weight hB space.left
    have := five_le_weight hB space.right
    simp only [work, weight_split hB hsplit]
    omega
  | @enter space acc hsplit =>
    have := five_le_weight hB space
    simp only [work]
    omega
  | apply => exact Nat.zero_lt_one
  | join => exact Nat.zero_lt_one
  | nested _ ih =>
    simp only [work]
    omega
  | task _ ih =>
    simp only [work]
    omega

/-! ### Runs -/

variable {s s' : State B α} {path : List Side}

theorem advance_of_step (h : step func s path = some s') :
    Advance func s.space s.acc s.call s'.space s'.acc s'.call := by
  obtain ⟨r, hr, rfl⟩ := Option.map_eq_some_iff.mp h
  exact advance_of_eq_some hr

/-- What is accumulated in the end stays the sequential result throughout a run. -/
theorem outcome_reachable (hfunc : func.InOrder) {b e : Size} (hbe : b ≤ e)
    (hr : (system func (.new b e) m).Reachable (fun _ _ => True) s) :
    Ordered s.space s.call ∧ outcome func s.space s.acc s.call = func.apply (.new b e) m := by
  refine hr.invariant (I := fun s => Ordered s.space s.call ∧
    outcome func s.space s.acc s.call = func.apply (.new b e) m) ?_ ?_
  · exact ⟨hbe, rfl⟩
  · intro s path s' h _ hs
    have hadv := advance_of_step hs
    constructor
    · exact ordered_advance hadv h.1
    · rw [outcome_advance hfunc hadv h.1]
      exact h.2

/-- `func` holds what processing `[b, e)` from the initial value gives, index by index if that
is how it processes a range. -/
structure State.Reduced (func : ReduceExecutable B α) (b e : Size) (m : α) (s : State B α) :
    Prop where
  whole : s.acc = func.apply (.new b e) m
  loop : ∀ body : α → ℕ → α,
    (∀ x m, x.spaceBegin ≤ x.spaceEnd → func.apply x m = x.indices.foldl body m) →
      s.acc = (Space1D.new (B := B) b e).indices.foldl body m

/-- Every run ends, it ends when the call returns, and then `func` holds the sequential result. -/
theorem runs_reduce (hB : 0 < B) (hfunc : func.InOrder) {b e : Size} (hbe : b ≤ e) (m : α) :
    (∀ s, (system func (.new b e) m).Reachable (fun _ _ => True) s →
      s.call = .returned ∧ s.Reduced func b e m ∨
        s.call ≠ .returned ∧ ∃ path, (step func s path).isSome) ∧
    ∀ paths s, (system func (.new b e) m).run (system func (.new b e) m).initial paths = some s →
      paths.length ≤ weight (B := B) hB (.new b e) := by
  constructor
  · intro s hr
    by_cases hret : s.call = .returned
    · left
      have hwhole : s.acc = func.apply (.new b e) m := by
        have houtcome := (outcome_reachable hfunc hbe hr).2
        rwa [hret] at houtcome
      refine ⟨hret, hwhole, ?_⟩
      intro body hbody
      rw [hwhole]
      exact hbody _ m hbe
    · obtain ⟨path, hpath⟩ := exists_advance func s.space s.acc hret
      exact .inr ⟨hret, path, by simpa [step] using hpath⟩
  · intro paths s hrun
    have hle := System.length_le_of_run (f := fun s => work hB s.space s.call)
      (fun s path s' hs => work_advance hB (advance_of_step hs)) hrun
    change paths.length + _ ≤ weight hB (.new b e) - 3 at hle
    omega

/-- Lists the indices; its join does not commute. -/
def listIndices : ReduceExecutable 1 (List ℕ) where
  apply x m := m ++ x.indices
  split _ := []
  join := (· ++ ·)

theorem listIndices_inOrder : listIndices.InOrder where
  continues := by
    intro a b c hab hbc m
    have hle : a.toNat ≤ b.toNat := hab
    have hle' : b.toNat ≤ c.toNat := hbc
    have happend := List.range'_append_1 (s := a.toNat) (m := b.toNat - a.toNat)
      (n := c.toNat - b.toNat)
    rw [show a.toNat + (b.toNat - a.toNat) = b.toNat by omega,
      show b.toNat - a.toNat + (c.toNat - b.toNat) = c.toNat - a.toNat by omega] at happend
    change m ++ List.range' a.toNat (b.toNat - a.toNat) ++
      List.range' b.toNat (c.toNat - b.toNat) = m ++ List.range' a.toNat (c.toNat - a.toNat)
    rw [List.append_assoc, happend]
  joins := by
    intro a b c _ _ m _
    rfl

theorem runs_reduce_listIndices :
    (∀ s, (system listIndices (.new 3 6) []).Reachable (fun _ _ => True) s →
      s.call = .returned ∧ s.Reduced listIndices 3 6 [] ∨
        s.call ≠ .returned ∧ ∃ path, (step listIndices s path).isSome) ∧
    ∀ paths s, (system listIndices (.new 3 6) []).run (system listIndices (.new 3 6) []).initial
        paths = some s → paths.length ≤ weight (B := 1) (by decide) (.new 3 6) :=
  runs_reduce (by decide) listIndices_inOrder (by decide) []

end PFunc.ParallelReduce
