import PFunc.Event
import PFunc.QueueSet

/-!
# Attributes, groups and tasks

A task handle stands for the address of a task, and a group for the address of a group.
`Copy` is the part of a task that `shallow_copy` copies.
-/

namespace PFunc

open Atomics Event QueueSet

abbrev Handle := ℕ
abbrev GroupId := ℕ

def queueCurrentThread : ℕ := 0xFFFF

def defaultTaskLevel : ℕ := 0

structure Attribute (π : Type) where
  queueNumber : ℕ
  priority : π
  numWaiters : Word
  isNested : Bool
  joinGroup : Bool
  level : ℕ
  deriving DecidableEq

/-- The constructor; `lowest` is the least value of the priority type. -/
def Attribute.new {π : Type} (lowest : π) (isNested joinGroup : Bool) : Attribute π where
  queueNumber := queueCurrentThread
  priority := lowest
  numWaiters := 1
  isNested := isNested
  joinGroup := joinGroup
  level := defaultTaskLevel

inductive BarrierType where
  | spin
  | wait
  | steal
  deriving DecidableEq

structure Group where
  barrierPhase : Bool
  barrierCount : ℕ
  rankToken : Word
  groupSize : ℕ
  typeOfBarrier : BarrierType
  deriving DecidableEq

namespace Group

def new (groupSize : ℕ) (barrier : BarrierType) : Group where
  barrierPhase := false
  barrierCount := 0
  rankToken := 0
  groupSize := groupSize
  typeOfBarrier := barrier

def joinGroup (g : Group) : Group × Word :=
  let r := fetchAndAdd g.rankToken 1
  ({ g with rankToken := r.1 }, r.2)

def leaveGroup (g : Group) : Group :=
  { g with rankToken := (fetchAndAdd g.rankToken (-1)).1 }

@[simp] theorem leaveGroup_groupSize (g : Group) : g.leaveGroup.groupSize = g.groupSize := by
  cases g
  rfl

/-- What `barrier_steal` does under the lock of the group; false for the last to arrive. -/
def arrive (g : Group) : Group × Bool :=
  if g.barrierCount + 1 = g.groupSize then
    ({ g with barrierCount := 0, barrierPhase := !g.barrierPhase }, false)
  else ({ g with barrierCount := g.barrierCount + 1 }, true)

end Group

/-- What `shallow_copy` copies; no group is the null pointer. -/
structure Copy (π : Type) where
  attr : Attribute π
  grp : Option GroupId
  gsize : ℕ
  grank : Word
  deriving DecidableEq

structure Task (π : Type) extends Copy π where
  testingCompl : EventBase
  waitingCompl : EventBase
  deriving DecidableEq

namespace Task

variable {π : Type}

def new (lowest : π) : Task π where
  attr := .new lowest true false
  grp := none
  gsize := 0
  grank := 0
  testingCompl := .new
  waitingCompl := .new

/-- `set_group`; the second component is the group after it. -/
def setGroup (t : Task π) (gp : GroupId) (g : Group) : Task π × Group :=
  if t.attr.joinGroup then
    let r := g.joinGroup
    ({ t with grp := some gp, gsize := g.groupSize, grank := r.2 }, r.1)
  else ({ t with grp := some gp }, g)

def resetCompletion (t : Task π) (nwait : Word) : Task π :=
  if t.attr.isNested then { t with testingCompl := .reset nwait }
  else { t with waitingCompl := .reset nwait }

def notify (t : Task π) : Task π :=
  if t.attr.isNested then { t with testingCompl := t.testingCompl.complete }
  else { t with waitingCompl := t.waitingCompl.complete }

/-- The event that the attribute selects. -/
def completion (t : Task π) : EventBase :=
  if t.attr.isNested then t.testingCompl else t.waitingCompl

def setCompletion (t : Task π) (e : EventBase) : Task π :=
  if t.attr.isNested then { t with testingCompl := e } else { t with waitingCompl := e }

/-- What `spawn_task` does to the task and the group before it queues the task. -/
def spawn (t : Task π) (attr : Attribute π) (gp : GroupId) (g : Group) : Task π × Group :=
  let r := setGroup { t with attr := attr } gp g
  (r.1.resetCompletion attr.numWaiters, r.2)

@[simp] theorem setGroup_attr (t : Task π) (gp : GroupId) (g : Group) :
    (t.setGroup gp g).1.attr = t.attr := by
  unfold setGroup
  split <;> rfl

@[simp] theorem setGroup_grp (t : Task π) (gp : GroupId) (g : Group) :
    (t.setGroup gp g).1.grp = some gp := by
  unfold setGroup
  split <;> rfl

@[simp] theorem resetCompletion_toCopy (t : Task π) (nwait : Word) :
    (t.resetCompletion nwait).toCopy = t.toCopy := by
  unfold resetCompletion
  split <;> rfl

@[simp] theorem notify_toCopy (t : Task π) : t.notify.toCopy = t.toCopy := by
  unfold notify
  split <;> rfl

@[simp] theorem setCompletion_toCopy (t : Task π) (e : EventBase) :
    (t.setCompletion e).toCopy = t.toCopy := by
  unfold setCompletion
  split <;> rfl

@[simp] theorem setCompletion_completion (t : Task π) (e : EventBase) :
    (t.setCompletion e).completion = e := by
  cases h : t.attr.isNested <;> simp [setCompletion, completion, h]

@[simp] theorem notify_completion (t : Task π) : t.notify.completion = t.completion.complete := by
  cases h : t.attr.isNested <;> simp [notify, completion, h]

@[simp] theorem spawn_attr (t : Task π) (attr : Attribute π) (gp : GroupId) (g : Group) :
    (t.spawn attr gp g).1.attr = attr := by
  simp [spawn]

@[simp] theorem spawn_grp (t : Task π) (attr : Attribute π) (gp : GroupId) (g : Group) :
    (t.spawn attr gp g).1.grp = some gp := by
  simp [spawn]

theorem spawn_testingCompl (t : Task π) {attr : Attribute π} (gp : GroupId) (g : Group)
    (h : attr.isNested) : (t.spawn attr gp g).1.testingCompl.eventState = activeIncomplete := by
  simp [spawn, resetCompletion, h]

theorem spawn_completion (t : Task π) (attr : Attribute π) (gp : GroupId) (g : Group) :
    (t.spawn attr gp g).1.completion.eventState = activeIncomplete := by
  cases h : attr.isNested <;> simp [spawn, resetCompletion, completion, h]

theorem notify_testingCompl (t : Task π) (h : t.attr.isNested) :
    t.notify.testingCompl.eventState = activeComplete := by
  simp [notify, h]

end Task

/-! ### The predicates of the scheduling points

`steal_pred` always returns `own_pred`. `comp` compares priorities; an element that
comes before another one is served after it. -/

namespace QueueSet.Policy

variable {π : Type}

/-- `regular_predicate_pair` -/
def regularPred (_ : Copy π) : Bool := true

/-- `waiting_predicate_pair` -/
def waitingPred (p : Policy) (comp : π → π → Bool) (previous current : Copy π) : Bool :=
  match p with
  | .cilkS => previous.attr.level ≤ current.attr.level
  | .prioS => comp previous.attr.priority current.attr.priority
  | _ => true

/-- `group_predicate_pair` -/
def groupPred (p : Policy) (comp : π → π → Bool) (previous current : Copy π) : Bool :=
  match p with
  | .cilkS => previous.attr.level ≤ current.attr.level ∧ previous.grp ≠ current.grp
  | .prioS => comp previous.attr.priority current.attr.priority ∧ previous.grp ≠ current.grp
  | _ => !(previous.grp = current.grp)

theorem grp_ne_of_groupPred {p : Policy} {comp : π → π → Bool} {previous current : Copy π}
    (h : p.groupPred comp previous current) : previous.grp ≠ current.grp := by
  cases p <;> simp [groupPred] at h
  · exact h.2
  · exact h
  · exact h
  · exact h.2

end QueueSet.Policy

end PFunc
