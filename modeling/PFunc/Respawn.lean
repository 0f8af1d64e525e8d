import PFunc.Exceptions
import PFunc.ObservedRuns
import PFunc.Task

/-!
# A task handle over its spawns

A handle may be spawned again once all calls on it have ended. The thread that runs the task and
the threads that test it or wait for it move in single accesses. How a waiter of the waitable
event sleeps is left out: it goes on when it finds the event no longer incomplete.
-/

namespace PFunc

open Atomics Event

namespace Task

variable {π : Type}

/-- The task without the event that its attribute does not select. -/
def normal (t : Task π) : Task π :=
  if t.attr.isNested then { t with waitingCompl := .new } else { t with testingCompl := .new }

@[simp] theorem normal_toCopy (t : Task π) : t.normal.toCopy = t.toCopy := by
  unfold normal
  split <;> rfl

@[simp] theorem normal_completion (t : Task π) : t.normal.completion = t.completion := by
  cases h : t.attr.isNested <;> simp [normal, completion, h]

@[simp] theorem normal_normal (t : Task π) : t.normal.normal = t.normal := by
  cases h : t.attr.isNested <;> simp [normal, h]

@[simp] theorem setCompletion_normal (t : Task π) (e : EventBase) :
    (t.normal.setCompletion e).normal = (t.setCompletion e).normal := by
  cases h : t.attr.isNested <;> simp [normal, setCompletion, h]

@[simp] theorem notify_normal (t : Task π) : t.normal.notify.normal = t.notify.normal := by
  cases h : t.attr.isNested <;> simp [normal, notify, h]

/-- All that a spawn leaves of the task as it was is its size and its rank, if it does not join
the group. -/
theorem spawn_normal_eq_iff (t t' : Task π) (attr : Attribute π) (gp : GroupId) (g : Group) :
    (t.spawn attr gp g).1.normal = (t'.spawn attr gp g).1.normal ↔
      attr.joinGroup ∨ t.gsize = t'.gsize ∧ t.grank = t'.grank := by
  cases hj : attr.joinGroup <;> cases hn : attr.isNested <;>
    simp [spawn, setGroup, resetCompletion, normal, hj, hn]

theorem spawn_snd_eq (t t' : Task π) (attr : Attribute π) (gp : GroupId) (g : Group) :
    (t.spawn attr gp g).2 = (t'.spawn attr gp g).2 := by
  cases hj : attr.joinGroup <;> simp [spawn, setGroup, hj]

end Task

namespace Respawn

open Exceptions ObservedRuns

variable {π F : Type}

/-- What the thread does that runs the task. -/
inductive Stage (π : Type) where
  | idle
  | queued
  /-- with the copy that the thread has cached -/
  | running (copy : Copy π)
  /-- `run` has returned, and `notify` has still to check the exception -/
  | returned
  | notifying
  deriving DecidableEq

def Stage.isIdle : Stage π → Bool
  | .idle => true
  | _ => false

inductive Purpose where
  | test
  | wait
  deriving DecidableEq

/-- Where a call of `test` or `wait` is. -/
inductive Call where
  /-- before `PFUNC_CHECK_AND_RETHROW` -/
  | check (p : Purpose)
  /-- in `event_base::test`, which `progress_wait` repeats -/
  | testing (p : Purpose) (pc : EventBase.TestPc)
  /-- in `wait` of the waitable event -/
  | asleep
  | decrement
  | deactivate
  /-- before `leave_group` -/
  | leave (p : Purpose)
  | done
  deriving DecidableEq

structure State (π F : Type) where
  task : Task π
  func : Option F
  except : Option Exception
  group : GroupId → Group
  stage : Stage π
  calls : List Call

inductive Query where
  | size
  | rank
  | group
  deriving DecidableEq

inductive Label (π F : Type) where
  | spawn (attr : Attribute π) (gp : GroupId) (work : F)
  /-- a thread takes the task, caches a copy of it and calls the functor -/
  | run
  | query (q : Query)
  /-- the functor arrives at the barrier of its group -/
  | barrier
  /-- the functor returns or throws -/
  | finish (thrown : Option (Thrown × Site))
  /-- one access of `notify` -/
  | notify
  | call (p : Purpose)
  | tick (i : ℕ)
  /-- another task that `progress_wait` runs throws out of it -/
  | unwind (i : ℕ) (error : Exception) (site : Site)
  /-- other tasks change a group -/
  | others (g : GroupId) (grp : Group)

inductive Obs (F : Type) where
  | silent
  | called (work : F)
  | size (gsize : ℕ)
  | rank (grank : Word)
  | group (grp : Option GroupId)
  | arrived (g : GroupId) (waits : Bool)
  | tested (complete : Bool)
  | waited
  | threw (error : Exception)
  deriving DecidableEq

def Purpose.answer : Purpose → Obs F
  | .test => .tested true
  | .wait => .waited

namespace State

/-- A constructed task that has never been spawned. -/
def fresh (lowest : π) (group : GroupId → Group) : State π F where
  task := .new lowest
  func := none
  except := none
  group := group
  stage := .idle
  calls := []

/-- Every call on the handle has ended, the last `notify` with its wake-up included. -/
def Completed (s : State π F) : Prop := s.stage.isIdle ∧ ∀ c ∈ s.calls, c = .done

instance (s : State π F) : Decidable s.Completed :=
  inferInstanceAs (Decidable (_ ∧ ∀ c ∈ s.calls, c = .done))

/-- What `spawn_task` does before it queues the task. -/
def spawn (s : State π F) (attr : Attribute π) (gp : GroupId) (work : F) : State π F :=
  let r := s.task.spawn attr gp (s.group gp)
  { s with
    task := r.1
    func := some work
    except := none
    group := Function.update s.group gp r.2
    stage := .queued
    calls := [] }

def goto (s : State π F) (i : ℕ) (c : Call) : State π F := { s with calls := s.calls.set i c }

def setEvent (s : State π F) (e : EventBase) : State π F :=
  { s with task := s.task.setCompletion e }

/-- The call leaves the event, and has still to leave the group if the task has joined it. -/
def complete (s : State π F) (i : ℕ) (p : Purpose) : State π F × Obs F :=
  if s.task.attr.joinGroup then (s.goto i (.leave p), .silent) else (s.goto i .done, p.answer)

end State

/-- The next access of a call. -/
def tick (s : State π F) (i : ℕ) : Option (State π F × Obs F) :=
  match s.calls[i]? with
  | some (.check p) =>
    match s.except, p with
    | some e, _ => some (s.goto i .done, .threw e)
    | none, .test => some (s.goto i (.testing .test .incomplete), .silent)
    | none, .wait =>
      some (s.goto i (if s.task.attr.isNested then .testing .wait .incomplete else .asleep),
        .silent)
  | some (.testing p pc) =>
    let r := s.task.completion.test pc
    match r.2, p with
    | .inl pc', _ => some ((s.setEvent r.1).goto i (.testing p pc'), .silent)
    | .inr true, _ => some ((s.setEvent r.1).complete i p)
    | .inr false, .test => some ((s.setEvent r.1).goto i .done, .tested false)
    | .inr false, .wait => some ((s.setEvent r.1).goto i (.testing .wait .incomplete), .silent)
  | some .asleep =>
    if s.task.completion.eventState = activeIncomplete then none
    else some (s.goto i .decrement, .silent)
  | some .decrement =>
    let r := s.task.completion.takeNotice
    if r.2 = 0 then some ((s.setEvent r.1).goto i .deactivate, .silent)
    else some ((s.setEvent r.1).complete i .wait)
  | some .deactivate => some ((s.setEvent s.task.completion.deactivate).complete i .wait)
  | some (.leave p) =>
    match s.task.grp with
    | some g =>
      some ({ s with group := Function.update s.group g (s.group g).leaveGroup }.goto i .done,
        p.answer)
    | none => none
  | some .done => none
  | none => none

def step (s : State π F) : Label π F → Option (State π F × Obs F)
  | .spawn attr gp work => if s.Completed then some (s.spawn attr gp work, .silent) else none
  | .run =>
    match s.stage, s.func with
    | .queued, some work => some ({ s with stage := .running s.task.toCopy }, .called work)
    | _, _ => none
  | .query q =>
    match s.stage, q with
    | .running copy, .size => some (s, .size copy.gsize)
    | .running copy, .rank => some (s, .rank copy.grank)
    | .running copy, .group => some (s, .group copy.grp)
    | _, _ => none
  | .barrier =>
    match s.stage with
    | .running copy =>
      match copy.grp with
      | some g =>
        let r := (s.group g).arrive
        some ({ s with group := Function.update s.group g r.1 }, .arrived g r.2)
      | none => none
    | _ => none
  | .finish thrown =>
    match s.stage, thrown with
    | .running _, none => some ({ s with stage := .returned }, .silent)
    | .running _, some (x, site) =>
      some ({ s with stage := .returned, except := some (x.rethrown site) }, .silent)
    | _, _ => none
  | .notify =>
    match s.stage, s.except with
    | .returned, some e => some ({ s with stage := .idle }, .threw e)
    | .returned, none => some ({ s with stage := .notifying }, .silent)
    | .notifying, _ =>
      some ({ s with task := s.task.notify, stage := .idle }, .silent)
    | _, _ => none
  | .call p => some ({ s with calls := s.calls ++ [.check p] }, .silent)
  | .tick i => tick s i
  | .unwind i error site =>
    match s.calls[i]? with
    | some (.testing .wait .incomplete) =>
      let e := (Thrown.pfunc error).rethrown site
      some ({ s with except := some e }.goto i .done, .threw e)
    | _ => none
  | .others g grp => some ({ s with group := Function.update s.group g grp }, .silent)

/-! ### The event that is not selected -/

namespace State

/-- The state without the event that the attribute of the task does not select. -/
def normal (s : State π F) : State π F := { s with task := s.task.normal }

@[simp] theorem normal_func (s : State π F) : s.normal.func = s.func := rfl

@[simp] theorem normal_except (s : State π F) : s.normal.except = s.except := rfl

@[simp] theorem normal_group (s : State π F) : s.normal.group = s.group := rfl

@[simp] theorem normal_stage (s : State π F) : s.normal.stage = s.stage := rfl

@[simp] theorem normal_calls (s : State π F) : s.normal.calls = s.calls := rfl

@[simp] theorem goto_normal (s : State π F) (i : ℕ) (c : Call) :
    (s.goto i c).normal = s.normal.goto i c := rfl

@[simp] theorem normal_normal (s : State π F) : s.normal.normal = s.normal := by
  simp [normal]

@[simp] theorem setEvent_normal (s : State π F) (e : EventBase) :
    (s.normal.setEvent e).normal = (s.setEvent e).normal := by
  simp [normal, setEvent]

theorem complete_normal (s : State π F) (i : ℕ) (p : Purpose) :
    Prod.map normal id (s.complete i p) = s.normal.complete i p := by
  have hattr : s.normal.task.attr = s.task.attr := congrArg Copy.attr s.task.normal_toCopy
  unfold complete
  rw [hattr]
  split <;> rfl

@[simp] theorem normal_toCopy (s : State π F) : s.normal.task.toCopy = s.task.toCopy :=
  s.task.normal_toCopy

@[simp] theorem normal_completion (s : State π F) :
    s.normal.task.completion = s.task.completion := s.task.normal_completion

@[simp] theorem complete_setEvent_normal (s : State π F) (e : EventBase) (i : ℕ) (p : Purpose) :
    Prod.map normal id ((s.normal.setEvent e).complete i p) =
      Prod.map normal id ((s.setEvent e).complete i p) := by
  rw [complete_normal, complete_normal, setEvent_normal]

end State

theorem tick_normal (s : State π F) (i : ℕ) :
    (tick s.normal i).map (Prod.map State.normal id) =
      (tick s i).map (Prod.map State.normal id) := by
  unfold tick
  simp only [State.normal_calls, State.normal_except, State.normal_completion,
    State.normal_toCopy]
  cases s.calls[i]? with
  | none => rfl
  | some c =>
    cases c with
    | check p => cases s.except <;> cases p <;> simp
    | testing p pc =>
      dsimp only
      generalize s.task.completion.test pc = r
      obtain ⟨e, pc' | b⟩ := r
      · simp
      · cases b <;> cases p <;> simp
    | asleep =>
      dsimp only
      split <;> simp
    | decrement =>
      dsimp only
      split <;> simp
    | deactivate => simp
    | leave p =>
      cases s.task.grp with
      | none => rfl
      | some g => simp [State.normal, State.goto]
    | done => rfl

theorem step_normal (s : State π F) (a : Label π F) :
    (step s.normal a).map (Prod.map State.normal id) =
      (step s a).map (Prod.map State.normal id) := by
  cases a with
  | spawn attr gp work =>
    have htask := (Task.spawn_normal_eq_iff s.task.normal s.task attr gp (s.group gp)).mpr
      (.inr (by simp))
    have hgroup := Task.spawn_snd_eq s.task.normal s.task attr gp (s.group gp)
    by_cases hc : s.Completed
    · have hc' : s.normal.Completed := hc
      simp only [step, if_pos hc, if_pos hc', Option.map_some, Prod.map_apply]
      simp [State.normal, State.spawn, htask, hgroup]
    · have hc' : ¬s.normal.Completed := hc
      simp only [step, if_neg hc, if_neg hc']
  | run =>
    simp only [step, State.normal_stage, State.normal_func, State.normal_toCopy]
    cases s.stage <;> cases s.func <;> simp [State.normal]
  | query q =>
    simp only [step, State.normal_stage]
    cases s.stage <;> cases q <;> simp
  | barrier =>
    simp only [step, State.normal_stage, State.normal_group]
    cases s.stage with
    | running copy => cases hg : copy.grp <;> simp [hg, State.normal]
    | _ => rfl
  | finish thrown =>
    simp only [step, State.normal_stage]
    cases s.stage <;> cases thrown <;> simp [State.normal]
  | notify =>
    simp only [step, State.normal_stage, State.normal_except]
    cases s.stage <;> cases s.except <;> simp [State.normal]
  | call p => simp [step, State.normal]
  | tick i => exact tick_normal s i
  | unwind i error site =>
    simp only [step, State.normal_calls]
    split <;> simp [State.normal, State.goto]
  | others g grp => simp [step, State.normal]

/-! ### The size and the rank that a history leaves -/

/-- What a label makes of the size and the rank of the task. -/
def Label.joined (group : GroupId → Group) (got : ℕ × Word) : Label π F → ℕ × Word
  | .spawn attr gp _ =>
    if attr.joinGroup then ((group gp).groupSize, (group gp).joinGroup.2) else got
  | _ => got

/-- The size and the rank that the last spawn of a history got that joined its group, or else
those before. -/
def lastJoined : ℕ × Word → State π F → List (Label π F) → ℕ × Word
  | got, _, [] => got
  | got, s, a :: as =>
    match step s a with
    | some r => lastJoined (a.joined s.group got) r.1 as
    | none => got

namespace State

def sizeAndRank (s : State π F) : ℕ × Word := (s.task.gsize, s.task.grank)

@[simp] theorem goto_sizeAndRank (s : State π F) (i : ℕ) (c : Call) :
    (s.goto i c).sizeAndRank = s.sizeAndRank := rfl

@[simp] theorem setEvent_sizeAndRank (s : State π F) (e : EventBase) :
    (s.setEvent e).sizeAndRank = s.sizeAndRank := by
  simp [sizeAndRank, setEvent]

@[simp] theorem complete_sizeAndRank (s : State π F) (i : ℕ) (p : Purpose) :
    (s.complete i p).1.sizeAndRank = s.sizeAndRank := by
  unfold complete
  split <;> rfl

end State

variable {s : State π F} {r : State π F × Obs F}

theorem tick_sizeAndRank {i : ℕ} (h : tick s i = some r) : r.1.sizeAndRank = s.sizeAndRank := by
  unfold tick at h
  split at h
  next => split at h <;> cases h <;> simp
  next =>
    dsimp only at h
    split at h <;> cases h <;> simp
  next =>
    split at h <;> cases h
    simp
  next =>
    dsimp only at h
    split at h <;> cases h <;> simp
  next =>
    cases h
    simp
  next =>
    split at h <;> cases h
    rfl
  next => cases h
  next => cases h

theorem step_sizeAndRank {a : Label π F} (h : step s a = some r) :
    r.1.sizeAndRank = a.joined s.group s.sizeAndRank := by
  cases a with
  | spawn attr gp work =>
    simp only [step, Option.ite_none_right_eq_some, Option.some.injEq] at h
    obtain ⟨-, rfl⟩ := h
    cases hj : attr.joinGroup <;>
      simp [State.sizeAndRank, State.spawn, Task.spawn, Task.setGroup, Label.joined, hj]
  | tick i => exact tick_sizeAndRank h
  | notify =>
    simp only [step] at h
    split at h <;> cases h <;> simp [State.sizeAndRank, Label.joined]
  | barrier =>
    simp only [step] at h
    split at h
    next =>
      split at h <;> cases h
      rfl
    next => cases h
  | run | query | finish | call | unwind | others =>
    simp only [step] at h
    first
    | (cases h; rfl)
    | (split at h <;> cases h <;> rfl)

theorem observe_sizeAndRank {as : List (Label π F)} {bs : List (Obs F)} {t : State π F}
    (h : observe step s as = some (bs, t)) :
    t.sizeAndRank = lastJoined s.sizeAndRank s as := by
  induction as generalizing s bs with
  | nil =>
    cases h
    rfl
  | cons a as ih =>
    obtain ⟨r, hr, hrest⟩ := Option.bind_eq_some_iff.mp h
    obtain ⟨q, hq, heq⟩ := Option.map_eq_some_iff.mp hrest
    obtain ⟨-, rfl⟩ := Prod.mk.inj heq
    rw [lastJoined, hr, ih hq, step_sizeAndRank hr]

/-! ### A handle that is spawned again -/

theorem trace_spawn (hc : s.Completed) (attr : Attribute π) (gp : GroupId) (work : F)
    (as : List (Label π F)) : trace step s (.spawn attr gp work :: as) =
      (trace step (s.spawn attr gp work) as).map (.silent :: ·) := by
  rw [trace_cons]
  simp [step, if_pos hc]

/-- The functor asks for its size and its rank. -/
def asking : List (Label π F) := [.run, .query .size, .query .rank]

theorem trace_asking (attr : Attribute π) (gp : GroupId) (work : F) :
    trace step (s.spawn attr gp work) asking =
      some [.called work, .size (s.spawn attr gp work).sizeAndRank.1,
        .rank (s.spawn attr gp work).sizeAndRank.2] := rfl

theorem sizeAndRank_spawn (hc : s.Completed) (attr : Attribute π) (gp : GroupId) (work : F) :
    (s.spawn attr gp work).sizeAndRank =
      (Label.spawn attr gp work).joined s.group s.sizeAndRank :=
  step_sizeAndRank (r := (s.spawn attr gp work, .silent)) (if_pos hc)

/-- Whatever happened to a handle before, after a spawn of it nobody can tell it from a new one
whose spawn got the same arguments, exactly if the task joins its group or the handle holds the
size and the rank of a new one. -/
theorem respawned_fresh_iff (lowest : π) (group : GroupId → Group) {history : List (Label π F)}
    {observed : List (Obs F)}
    (hrun : observe step (State.fresh lowest group) history = some (observed, s))
    (hc : s.Completed) (attr : Attribute π) (gp : GroupId) (work : F) :
    (∀ future, trace step s (.spawn attr gp work :: future) =
        trace step (State.fresh lowest s.group) (.spawn attr gp work :: future)) ↔
      attr.joinGroup ∨ lastJoined (0, 0) (State.fresh lowest group) history = (0, 0) := by
  have hfresh : (State.fresh lowest s.group : State π F).Completed := ⟨rfl, by simp [State.fresh]⟩
  have hlast : s.sizeAndRank = lastJoined (0, 0) (State.fresh lowest group) history :=
    observe_sizeAndRank hrun
  rw [← hlast]
  constructor
  · intro hsame
    cases hj : attr.joinGroup with
    | true => exact .inl rfl
    | false =>
      have hasked := hsame asking
      rw [trace_spawn hc, trace_spawn hfresh, trace_asking, trace_asking, sizeAndRank_spawn hc,
        sizeAndRank_spawn hfresh] at hasked
      right
      simpa [Label.joined, hj, State.fresh, State.sizeAndRank, Task.new, Prod.ext_iff] using hasked
  · intro h future
    rw [trace_spawn hc, trace_spawn hfresh]
    congr 1
    refine (respects_of_normal step_normal).indistinguishable ?_ future
    have htask := (Task.spawn_normal_eq_iff s.task (Task.new lowest) attr gp (s.group gp)).mpr
      (h.imp id fun h => Prod.mk.inj h)
    have hgroup := Task.spawn_snd_eq s.task (Task.new lowest) attr gp (s.group gp)
    simp [State.normal, State.spawn, State.fresh, htask, hgroup]

/-- A nested spawn that joins a group of two; it is run and waited for. -/
def joinedLife : List (Label ℕ ℕ) :=
  [.spawn (.new 0 true true) 1 7, .run, .finish none, .notify, .notify, .call .wait] ++
    List.replicate 6 (.tick 0)

def groupsOfTwo : GroupId → Group := fun _ => .new 2 .spin

/-- What `joinedLife` leaves. -/
def joinedEnd : State ℕ ℕ :=
  ((observe step (State.fresh 0 groupsOfTwo) joinedLife).map Prod.snd).getD
    (State.fresh 0 groupsOfTwo)

theorem observe_joinedLife : observe step (State.fresh 0 groupsOfTwo) joinedLife =
    some ([.silent, .called 7] ++ List.replicate 9 .silent ++ [.waited], joinedEnd) := rfl

/-- After `joinedLife`, a spawn that joins no group is told from one of a new task, and one that
joins its group is not. -/
theorem respawned_fresh_iff_joinedLife :
    (¬∀ future, trace step joinedEnd (.spawn (.new 0 true false) 2 8 :: future) =
        trace step (State.fresh 0 joinedEnd.group) (.spawn (.new 0 true false) 2 8 :: future)) ∧
      ∀ future, trace step joinedEnd (.spawn (.new 0 true true) 2 8 :: future) =
        trace step (State.fresh 0 joinedEnd.group) (.spawn (.new 0 true true) 2 8 :: future) :=
  ⟨mt (respawned_fresh_iff 0 groupsOfTwo observe_joinedLife (by decide) _ 2 8).mp (by decide),
    (respawned_fresh_iff 0 groupsOfTwo observe_joinedLife (by decide) _ 2 8).mpr (.inl rfl)⟩

/-- The functor of the second spawn, which has joined no group, is told that its group has two
members; that of a new task is told 0. -/
theorem respawned_not_fresh :
    ¬∀ (history : List (Label ℕ ℕ)) (s : State ℕ ℕ) (observed : List (Obs ℕ)),
      observe step (State.fresh 0 groupsOfTwo) history = some (observed, s) → s.Completed →
        ∀ (attr : Attribute ℕ) (gp : GroupId) (work : ℕ) (future : List (Label ℕ ℕ)),
          trace step s (.spawn attr gp work :: future) =
            trace step (State.fresh 0 s.group) (.spawn attr gp work :: future) := by
  intro h
  have hsame := h joinedLife joinedEnd _ observe_joinedLife (by decide) (.new 0 true false) 2 8
    [.run, .query .size]
  exact absurd hsame (by decide)

end Respawn

end PFunc
