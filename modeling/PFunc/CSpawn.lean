import PFunc.Exceptions
import PFunc.Task

/-!
# The C interface to `spawn_task`

The C functions turn each pointer they get into a reference, also where it is null. To bind such
a reference is undefined already; here it is followed to where its object is first accessed.
-/

namespace PFunc.CSpawn

open Atomics QueueSet Exceptions

/-- `internal_work_func_t` -/
structure WorkFunc (ω α : Type) where
  funcPtr : ω
  funcArg : α

variable {π ω α : Type}

/-- The objects that a task manager and its callers share; `lowest` is the least priority. -/
structure Manager (π ω α : Type) where
  task : Handle → Task π
  func : Handle → Option (WorkFunc ω α)
  except : Handle → Option Exception
  group : GroupId → Group
  numQueues : ℕ
  queue : ℕ → List Handle
  lowest : π
  defaultGroup : GroupId

/-- `attribute (true, false)` -/
def Manager.defaultAttribute (m : Manager π ω α) : Attribute π := .new m.lowest true false

def Manager.mapTask (m : Manager π ω α) (h : Handle) (f : Task π → Task π) : Manager π ω α :=
  { m with task := Function.update m.task h (f (m.task h)) }

@[simp] theorem Manager.mapTask_task (m : Manager π ω α) (h : Handle) (f : Task π → Task π) :
    (m.mapTask h f).task h = f (m.task h) := Function.update_self ..

/-- What is undefined in a spawn. -/
inductive Fault where
  | nullAttribute
  | nullGroup
  /-- `tls_get` knows no `thread_attr` of the calling thread -/
  | nullThread
  /-- the queue number is too large -/
  | noQueue
  deriving DecidableEq

def Fault.IsNullArgument : Fault → Prop
  | .nullAttribute => True
  | .nullGroup => True
  | _ => False

/-- An action on the objects, which an undefined access ends. -/
abbrev Action (π ω α : Type) := EStateM Fault (Manager π ω α)

/-- Access the object of a reference. -/
def deref {β : Type} (fault : Fault) : Option β → Action π ω α β
  | some b => pure b
  | none => throw fault

def modifyTask (h : Handle) (f : Task π → Task π) : Action π ω α Unit :=
  modify fun m => m.mapTask h f

/-- `set_group`, of a group that may be null -/
def setGroup (h : Handle) (gp : Option GroupId) : Action π ω α Unit := do
  modifyTask h fun t => { t with grp := gp }
  if ((← get).task h).attr.joinGroup then
    let g ← deref .nullGroup gp
    let grp := (← get).group g
    modifyTask h fun t => { t with gsize := grp.groupSize, grank := grp.joinGroup.2 }
    modify fun m => { m with group := Function.update m.group g grp.joinGroup.1 }

/-- `reset_completion`, which also clears the exception -/
def resetCompletion (h : Handle) (nwait : Word) : Action π ω α Unit := do
  modifyTask h fun t => t.resetCompletion nwait
  modify fun m => { m with except := Function.update m.except h none }

/-- The queue of a spawn; `self` is that of the calling thread. -/
def taskQueueNumber (self : Option ℕ) (attr : Attribute π) : Action π ω α ℕ :=
  if attr.queueNumber = queueCurrentThread then deref .nullThread self else pure attr.queueNumber

/-- `put` -/
def putTask (p : Policy) (queueNum : ℕ) (h : Handle) : Action π ω α Unit := do
  if queueNum < (← get).numQueues then
    modify fun m =>
      { m with queue := Function.update m.queue queueNum (put p (m.queue queueNum) h) }
  else throw .noQueue

/-- The end of a spawn: choose the queue and put the task into it. -/
def enqueue (p : Policy) (self : Option ℕ) (attr : Attribute π) (h : Handle) :
    Action π ω α Unit := do
  putTask p (← taskQueueNumber self attr) h

section Spawn

variable (p : Policy) (self : Option ℕ) (newTask : Handle)

/-- `spawn_task`, with references that may be null. -/
def spawnTask (newAttr : Option (Attribute π)) (newGroup : Option GroupId)
    (newWork : WorkFunc ω α) : Action π ω α Unit := do
  let attr ← deref .nullAttribute newAttr
  modifyTask newTask fun t => { t with attr := attr }
  setGroup newTask newGroup
  modify fun m => { m with func := Function.update m.func newTask (some newWork) }
  resetCompletion newTask attr.numWaiters
  enqueue p self attr newTask

/-- The overload of `spawn_task` without a group. -/
def spawnTaskAttr (newAttr : Attribute π) (newWork : WorkFunc ω α) : Action π ω α Unit := do
  spawnTask p self newTask (some newAttr) (some (← get).defaultGroup) newWork

/-- The overload of `spawn_task` without an attribute and a group. -/
def spawnTaskDefault (newWork : WorkFunc ω α) : Action π ω α Unit := do
  let m ← get
  spawnTask p self newTask (some m.defaultAttribute) (some m.defaultGroup) newWork

/-- `pfunc_<sched>_spawn_c` -/
def spawnC (attr : Option (Attribute π)) (group : Option GroupId) (work : ω) (arg : α) :
    Action π ω α Unit :=
  spawnTask p self newTask attr group ⟨work, arg⟩

/-- `pfunc_<sched>_spawn_cxx` -/
def spawnCxx (attr : Option (Attribute π)) (group : Option GroupId) (work : WorkFunc ω α) :
    Action π ω α Unit :=
  spawnTask p self newTask attr group work

/-- The C++ spawn with the defaults of the manager for what is omitted. Only a spawn with a group
and without an attribute has no overload of its own. -/
def spawnOmitting (attr : Option (Attribute π)) (group : Option GroupId) (work : WorkFunc ω α) :
    Action π ω α Unit :=
  match attr, group with
  | none, none => spawnTaskDefault p self newTask work
  | some attr, none => spawnTaskAttr p self newTask attr work
  | none, some group => do
    spawnTask p self newTask (some (← get).defaultAttribute) (some group) work
  | some attr, some group => spawnTask p self newTask (some attr) (some group) work

end Spawn

/-- The C call dereferences no null argument and has the effect of the C++ call. -/
def Agrees (c cxx : Action π ω α Unit) (m : Manager π ω α) : Prop :=
  (∀ fault m', c m = .error fault m' → ¬fault.IsNullArgument) ∧ c m = cxx m

/-! ### What a spawn does with the references it is given -/

/-- The objects before the task is queued. -/
def Manager.spawned (m : Manager π ω α) (h : Handle) (attr : Attribute π) (gp : GroupId)
    (work : WorkFunc ω α) : Manager π ω α :=
  let r := (m.task h).spawn attr gp (m.group gp)
  { m with
    task := Function.update m.task h r.1
    func := Function.update m.func h (some work)
    except := Function.update m.except h none
    group := Function.update m.group gp r.2 }

/-- The objects before the task is queued that does not join the null group. -/
def Manager.spawnedNull (m : Manager π ω α) (h : Handle) (attr : Attribute π)
    (work : WorkFunc ω α) : Manager π ω α :=
  let t : Task π := { m.task h with attr := attr, grp := none }
  { m with
    task := Function.update m.task h (t.resetCompletion attr.numWaiters)
    func := Function.update m.func h (some work)
    except := Function.update m.except h none }

variable {p : Policy} {self : Option ℕ} {h : Handle} {attr : Attribute π} {gp : GroupId}
  {work : WorkFunc ω α} {m m' : Manager π ω α}

theorem bind_ok {β γ : Type} {x : Action π ω α β} {f : β → Action π ω α γ} {b : β}
    (hx : x m = .ok b m') : (x >>= f) m = f b m' := by
  change EStateM.bind x f m = f b m'
  simp [EStateM.bind, hx]

theorem bind_error {β γ : Type} {x : Action π ω α β} {f : β → Action π ω α γ} {fault : Fault}
    (hx : x m = .error fault m') : (x >>= f) m = .error fault m' := by
  change EStateM.bind x f m = .error fault m'
  simp [EStateM.bind, hx]

theorem get_eq (m : Manager π ω α) : (get : Action π ω α _) m = .ok m m := rfl

theorem modify_eq (f : Manager π ω α → Manager π ω α) (m : Manager π ω α) :
    (modify f : Action π ω α Unit) m = .ok () (f m) := rfl

theorem pure_eq (m : Manager π ω α) : (pure () : Action π ω α Unit) m = .ok () m := rfl

theorem setGroup_some : setGroup h (some gp) m = .ok () { m with
    task := Function.update m.task h ((m.task h).setGroup gp (m.group gp)).1
    group := Function.update m.group gp ((m.task h).setGroup gp (m.group gp)).2 } := by
  refine (bind_ok rfl).trans ((bind_ok (get_eq _)).trans ?_)
  cases hj : (m.task h).attr.joinGroup with
  | true =>
    rw [if_pos (by simpa using hj)]
    refine (bind_ok rfl).trans ((bind_ok (get_eq _)).trans ((bind_ok rfl).trans ?_))
    rw [modify_eq]
    simp [Manager.mapTask, Task.setGroup, hj]
  | false =>
    rw [if_neg (by simp [hj]), pure_eq]
    simp [Manager.mapTask, Task.setGroup, hj]

/-- A spawn with an attribute and a group does to them what `Task.spawn` does. -/
theorem spawnTask_some (p : Policy) (self : Option ℕ) (h : Handle) (attr : Attribute π)
    (gp : GroupId) (work : WorkFunc ω α) (m : Manager π ω α) :
    spawnTask p self h (some attr) (some gp) work m =
      enqueue p self attr h (m.spawned h attr gp work) := by
  refine (bind_ok rfl).trans ((bind_ok rfl).trans ((bind_ok setGroup_some).trans
    ((bind_ok rfl).trans ((bind_ok rfl).trans ?_))))
  simp [Manager.mapTask, Manager.spawned, Task.spawn]

theorem spawnTask_nullAttribute (p : Policy) (self : Option ℕ) (h : Handle)
    (group : Option GroupId) (work : WorkFunc ω α) (m : Manager π ω α) :
    spawnTask p self h none group work m = .error .nullAttribute m := bind_error rfl

theorem setGroup_null_joining (hj : (m.task h).attr.joinGroup) :
    ∃ m', setGroup h none m = .error .nullGroup m' := by
  refine ⟨m.mapTask h fun t => { t with grp := none }, ?_⟩
  refine (bind_ok rfl).trans ((bind_ok (get_eq _)).trans ?_)
  rw [if_pos (by simpa using hj)]
  exact bind_error rfl

/-- A task that joins the null group accesses it. -/
theorem spawnTask_null_joining (p : Policy) (self : Option ℕ) (h : Handle) (work : WorkFunc ω α)
    (m : Manager π ω α) (hj : attr.joinGroup) :
    ∃ m', spawnTask p self h (some attr) none work m = .error .nullGroup m' := by
  obtain ⟨m', hm'⟩ := setGroup_null_joining
    (h := h) (m := m.mapTask h fun t => { t with attr := attr }) (by simpa using hj)
  exact ⟨m', (bind_ok rfl).trans ((bind_ok rfl).trans (bind_error hm'))⟩

/-- A task that does not join its group has the null pointer for it. -/
theorem spawnTask_null_ungrouped (p : Policy) (self : Option ℕ) (h : Handle)
    (work : WorkFunc ω α) (m : Manager π ω α) (hj : attr.joinGroup = false) :
    spawnTask p self h (some attr) none work m =
      enqueue p self attr h (m.spawnedNull h attr work) := by
  have hset : setGroup h none (m.mapTask h fun t => { t with attr := attr }) =
      .ok () (m.mapTask h fun t => { t with attr := attr, grp := none }) := by
    refine (bind_ok rfl).trans ((bind_ok (get_eq _)).trans ?_)
    rw [if_neg (by simp [hj]), pure_eq]
    simp [Manager.mapTask]
  refine (bind_ok rfl).trans ((bind_ok rfl).trans ((bind_ok hset).trans
    ((bind_ok rfl).trans ((bind_ok rfl).trans ?_))))
  simp [Manager.mapTask, Manager.spawnedNull]

/-! ### Queueing the task -/

theorem enqueue_eq : enqueue p self attr h m =
    match if attr.queueNumber = queueCurrentThread then self else some attr.queueNumber with
    | none => .error .nullThread m
    | some q =>
      if q < m.numQueues then
        .ok () { m with queue := Function.update m.queue q (put p (m.queue q) h) }
      else .error .noQueue m := by
  have hput : ∀ q, putTask p q h m =
      if q < m.numQueues then
        .ok () { m with queue := Function.update m.queue q (put p (m.queue q) h) }
      else .error .noQueue m := by
    intro q
    refine (bind_ok (get_eq m)).trans ?_
    split <;> rfl
  unfold enqueue taskQueueNumber
  split
  next =>
    cases self with
    | none => exact bind_error rfl
    | some q => exact (bind_ok rfl).trans (hput q)
  next => exact (bind_ok rfl).trans (hput _)

theorem enqueue_error {fault : Fault} (he : enqueue p self attr h m = .error fault m') :
    ¬fault.IsNullArgument := by
  rw [enqueue_eq] at he
  split at he
  next =>
    cases he
    exact id
  next =>
    split at he
    next => cases he
    next =>
      cases he
      exact id

/-- The tasks are told from what is left after a task has been queued. -/
theorem enqueue_task {m₁ m₂ : Manager π ω α} (hq : m₁.numQueues = m₂.numQueues)
    (he : enqueue p self attr h m₁ = enqueue p self attr h m₂) : m₁.task = m₂.task := by
  rw [enqueue_eq, enqueue_eq, hq] at he
  split at he
  next =>
    cases he
    rfl
  next =>
    split at he
    next => exact (Manager.mk.inj (EStateM.Result.ok.inj he).2).1
    next =>
      cases he
      rfl

/-! ### Given and omitted arguments -/

section Agreement

variable (p : Policy) (self : Option ℕ) (h : Handle) (attr : Option (Attribute π))
  (group : Option GroupId) (m : Manager π ω α)

/-- Every argument left out is filled in. -/
theorem spawnOmitting_eq (work : WorkFunc ω α) :
    spawnOmitting p self h attr group work m =
      spawnTask p self h (some (attr.getD m.defaultAttribute))
        (some (group.getD m.defaultGroup)) work m := by
  cases attr <;> cases group <;> rfl

/-- With a null argument the calls differ: the attribute is accessed, and the group too if the task
joins it; else the task is left without a group. -/
theorem agrees_iff (work : WorkFunc ω α) :
    Agrees (spawnTask p self h attr group work) (spawnOmitting p self h attr group work) m ↔
      attr.isSome ∧ group.isSome := by
  unfold Agrees
  rw [spawnOmitting_eq]
  cases attr with
  | none =>
    refine iff_of_false ?_ (by simp)
    rintro ⟨hnull, -⟩
    exact hnull _ _ (spawnTask_nullAttribute p self h group work m) trivial
  | some attr =>
    cases group with
    | none =>
      refine iff_of_false ?_ (by simp)
      rintro ⟨hnull, heffect⟩
      cases hj : attr.joinGroup with
      | true =>
        obtain ⟨m', hm'⟩ := spawnTask_null_joining p self h work m hj
        exact hnull _ _ hm' trivial
      | false =>
        rw [spawnTask_null_ungrouped p self h work m hj, spawnTask_some, Option.getD_some] at heffect
        have htask := enqueue_task (by rfl) heffect
        have hgrp := congrArg (fun task => (task h).grp) htask
        simp [Manager.spawnedNull, Manager.spawned] at hgrp
    | some gp =>
      refine iff_of_true ⟨?_, rfl⟩ ⟨rfl, rfl⟩
      intro fault m' he
      rw [spawnTask_some] at he
      exact enqueue_error he

/-- Both C functions agree with the C++ spawn exactly if neither argument is null. -/
theorem spawn_agrees_iff (work : ω) (arg : α) :
    (Agrees (spawnC p self h attr group work arg)
        (spawnOmitting p self h attr group ⟨work, arg⟩) m ↔ attr.isSome ∧ group.isSome) ∧
      (Agrees (spawnCxx p self h attr group ⟨work, arg⟩)
        (spawnOmitting p self h attr group ⟨work, arg⟩) m ↔ attr.isSome ∧ group.isSome) :=
  ⟨agrees_iff p self h attr group m ⟨work, arg⟩, agrees_iff p self h attr group m ⟨work, arg⟩⟩

end Agreement

/-- One queue, nothing spawned. -/
def freshManager : Manager ℕ ℕ ℕ where
  task := fun _ => .new 0
  func := fun _ => none
  except := fun _ => none
  group := fun _ => .new 1 .spin
  numQueues := 1
  queue := fun _ => []
  lowest := 0
  defaultGroup := 0

/-- A call as the tutorial shows it reads its attribute through the null pointer. -/
theorem not_agrees_nulls :
    ¬(∀ (attr : Option (Attribute ℕ)) (group : Option GroupId), attr = none ∨ group = none →
      Agrees (spawnC .cilkS (some 0) 0 attr group 7 3)
        (spawnOmitting .cilkS (some 0) 0 attr group ⟨7, 3⟩) freshManager) := by
  intro hagrees
  exact (hagrees none none (.inl rfl)).1 .nullAttribute freshManager rfl trivial

end PFunc.CSpawn
