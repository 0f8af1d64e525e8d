import PFunc.LabelledRuns
import PFunc.Task

/-!
# The task manager

Spawning, the work loop and the two scheduling points inside a functor run at the
granularity of their accesses to queues, events and groups. A worker's call stack is the
list of the tasks it runs, each with the scheduling point at which it was taken. The
main thread, numbered `numThreads`, spawns and waits but runs no task. What a functor
does apart from these calls, the spinning barrier included, touches no shared state
here. Shutdown and exceptions are left out.
-/

namespace PFunc.TaskManager

open LabelledRuns Atomics Event QueueSet

/-- The template arguments and the constructor's; `lowest` is the least priority and
`groups` are the groups the program has made. -/
structure Config (π : Type) where
  policy : Policy
  threadsPerQueue : List ℕ
  taskMaxAttempts : Word
  comp : π → π → Bool
  lowest : π
  groups : GroupId → Group

variable {π : Type}

namespace Config

def numQueues (cfg : Config π) : ℕ := cfg.threadsPerQueue.length

def numThreads (cfg : Config π) : ℕ := cfg.threadsPerQueue.sum

/-- The queue of a thread. The workers are numbered queue by queue; the main thread
puts on queue 0. -/
def queueNumber (cfg : Config π) (t : ℕ) : ℕ :=
  (cfg.threadsPerQueue.zipIdx.flatMap fun e => List.replicate e.1 e.2).getD t 0

end Config

/-- A scheduling point; `current` is the copy of the suspended task kept there. -/
inductive Point (π : Type) where
  | work
  /-- in `progress_wait` on the event of `h` -/
  | wait (current : Copy π) (h : Handle)
  /-- in `progress_barrier`, called by `barrier_steal` -/
  | barrier (current : Copy π) (g : GroupId) (myPhase : Bool)
  deriving DecidableEq

/-- A task on a call stack and the point at which it was taken. -/
structure Frame (π : Type) where
  task : Handle
  point : Point π
  deriving DecidableEq

/-- Which of the two tests of the completion predicate `get_task` is at. -/
inductive Site where
  | loop
  | exit
  deriving DecidableEq

inductive Seek where
  | test (site : Site) (pc : EventBase.TestPc)
  /-- `get` has examined the first `k` queues -/
  | visit (k : ℕ)
  deriving DecidableEq

inductive Ctl (π : Type) where
  /-- the functor on top, or the main program -/
  | functor
  /-- in `spawn_task`, before `put` -/
  | spawning (h : Handle) (q : ℕ)
  /-- the main thread in `progress_wait` -/
  | polling (h : Handle) (pc : EventBase.TestPc)
  /-- in `get_task`, or in `get` under `progress_barrier` -/
  | seeking (p : Point π) (numAttempts : Word) (seek : Seek)
  /-- in `get_task` with a task in hand, at its last test -/
  | took (p : Point π) (h : Handle) (pc : EventBase.TestPc)
  /-- before the functor of the task in hand -/
  | starting (p : Point π) (h : Handle)
  /-- after the functor of the frame and before `notify` -/
  | returned (f : Frame π)
  /-- the event of `h` is complete, and `wait` has still to leave the group -/
  | leaving (h : Handle)
  /-- the loop of `barrier_steal` -/
  | spinning (g : GroupId) (myPhase : Bool)
  deriving DecidableEq

structure Thread (π : Type) where
  /-- the task on top comes first -/
  frames : List (Frame π)
  ctl : Ctl π
  /-- `task_cache [my_thread_id]` -/
  cache : Copy π

/-- How far a spawn has come. -/
inductive Stage where
  | spawning
  | queued
  | taken
  | running
  | returned
  | complete
  deriving DecidableEq

def Stage.next : Stage → Option Stage
  | .spawning => some .queued
  | .queued => some .taken
  | .taken => some .running
  | .running => some .returned
  | .returned => some .complete
  | .complete => none

/-- What has happened: how often each stage was entered, who spawned a task and when,
when a task was taken, and which children have not been waited for. -/
structure History where
  entries : Handle → Stage → ℕ
  parent : Handle → Option Handle
  born : Handle → ℕ
  began : Handle → ℕ
  clock : ℕ
  unjoined : List Handle

def History.enter (x : History) (h : Handle) (st : Stage) : History :=
  { x with entries := fun h' st' => x.entries h' st' + if h = h' ∧ st = st' then 1 else 0 }

structure State (π : Type) where
  task : Handle → Task π
  group : GroupId → Group
  queue : ℕ → List Handle
  thread : ℕ → Thread π
  hist : History

inductive Act (π : Type) where
  | spawn (h : Handle) (attr : Attribute π) (g : GroupId)
  | wait (h : Handle)
  | barrier
  /-- the functor returns -/
  | ret
  /-- the next step inside the library; `top` is the position of a priority queue's top -/
  | tick (top : ℕ)
  deriving DecidableEq

structure Label (π : Type) where
  thread : ℕ
  act : Act π
  deriving DecidableEq

variable (cfg : Config π)

/-- The predicate pair of a scheduling point. -/
def Point.predicate (s : State π) : Point π → PredicatePair Handle
  | .work => ⟨fun h => Policy.regularPred (s.task h).toCopy,
      fun h => Policy.regularPred (s.task h).toCopy⟩
  | .wait current _ => ⟨fun h => cfg.policy.waitingPred cfg.comp current (s.task h).toCopy,
      fun h => cfg.policy.waitingPred cfg.comp current (s.task h).toCopy⟩
  | .barrier current _ _ => ⟨fun h => cfg.policy.groupPred cfg.comp current (s.task h).toCopy,
      fun h => cfg.policy.groupPred cfg.comp current (s.task h).toCopy⟩

/-- `compare_task_ptr` -/
def compareTaskPtr (s : State π) (h h' : Handle) : Bool :=
  cfg.comp (s.task h).attr.priority (s.task h').attr.priority

/-- A call of `get_task` begins. -/
def getTask (p : Point π) : Ctl π :=
  .seeking p cfg.taskMaxAttempts (.test .loop .incomplete)

/-- `get_task` goes on with the result of its completion predicate. -/
def tested (p : Point π) (numAttempts : Word) : Site → Bool → Option (Ctl π)
  | .loop, false =>
    if 0 < numAttempts then some (.seeking p (numAttempts - 1) (.visit 0))
    else some (.seeking p (numAttempts - 1) (.test .exit .incomplete))
  | .loop, true => some (.seeking p numAttempts (.test .exit .incomplete))
  | .exit, false =>
    let half := cfg.taskMaxAttempts / 2
    some (.seeking p (if half = 0 then 1 else half) (.test .loop .incomplete))
  | .exit, true =>
    match p with
    | .wait _ h => some (.leaving h)
    | _ => none

/-- `get` has returned null. -/
def missed (numAttempts : Word) : Point π → Ctl π
  | .barrier _ g myPhase => .spinning g myPhase
  | p => .seeking p numAttempts (.test .loop .incomplete)

/-- `get` has returned `h`. -/
def found (h : Handle) : Point π → Ctl π
  | .barrier current g myPhase => .starting (.barrier current g myPhase) h
  | p => .took p h .incomplete

/-- After `notify`, the caller of `run` goes on. -/
def resume (cache : Copy π) : Point π → Copy π × Ctl π
  | .work => (cache, getTask cfg .work)
  | .wait current h => (current, getTask cfg (.wait current h))
  | .barrier current g myPhase => (current, .spinning g myPhase)

namespace State

def setThread (s : State π) (t : ℕ) (th : Thread π) : State π :=
  { s with thread := Function.update s.thread t th }

def goto (s : State π) (t : ℕ) (c : Ctl π) : State π :=
  s.setThread t { s.thread t with ctl := c }

def setTask (s : State π) (h : Handle) (x : Task π) : State π :=
  { s with task := Function.update s.task h x }

def setGroup (s : State π) (g : GroupId) (x : Group) : State π :=
  { s with group := Function.update s.group g x }

def enter (s : State π) (h : Handle) (st : Stage) : State π :=
  { s with hist := s.hist.enter h st }

/-- `spawn_task` before `put`. -/
def spawn (s : State π) (t : ℕ) (h : Handle) (attr : Attribute π) (g : GroupId) (q : ℕ) :
    State π :=
  let r := (s.task h).spawn attr g (s.group g)
  (((s.setTask h r.1).setGroup g r.2).goto t (.spawning h q)).enter h .spawning

/-- `task_queue->put` -/
def put (s : State π) (t : ℕ) (h : Handle) (q : ℕ) : State π :=
  let parent := (s.thread t).frames.head?.map (·.task)
  let hist := s.hist.enter h .queued
  ({ s with
    queue := Function.update s.queue q (QueueSet.put cfg.policy (s.queue q) h)
    hist := { hist with
      parent := Function.update hist.parent h parent
      born := Function.update hist.born h hist.clock
      clock := hist.clock + 1
      unjoined := if parent.isSome then h :: hist.unjoined else hist.unjoined } }).goto t .functor

/-- The accesses of `completion_pred ()` to the event of `h`. -/
def test (s : State π) (h : Handle) (pc : EventBase.TestPc) :
    State π × (EventBase.TestPc ⊕ Bool) :=
  let r := (s.task h).testingCompl.test pc
  (s.setTask h { s.task h with testingCompl := r.1 }, r.2)

/-- One visit of `get`, when it finds a task. -/
def take (s : State π) (t : ℕ) (p : Point π) (q : ℕ) (h : Handle) (rest : List Handle) :
    State π :=
  let hist := s.hist.enter h .taken
  ({ s with
    queue := Function.update s.queue q rest
    hist := { hist with
      began := Function.update hist.began h hist.clock
      clock := hist.clock + 1 } }).goto t (found h p)

/-- The cache is set and the functor called. -/
def start (s : State π) (t : ℕ) (p : Point π) (h : Handle) : State π :=
  (s.setThread t ⟨⟨h, p⟩ :: (s.thread t).frames, .functor, (s.task h).toCopy⟩).enter h .running

def ret (s : State π) (t : ℕ) (f : Frame π) (rest : List (Frame π)) : State π :=
  (s.setThread t { s.thread t with frames := rest, ctl := .returned f }).enter f.task .returned

def notify (s : State π) (t : ℕ) (f : Frame π) : State π :=
  let r := resume cfg (s.thread t).cache f.point
  ((s.setTask f.task (s.task f.task).notify).setThread t
    { s.thread t with cache := r.1, ctl := r.2 }).enter f.task .complete

/-- `wait` leaves the group and returns. -/
def leave (s : State π) (t : ℕ) (h : Handle) : State π :=
  let x := s.task h
  let s' := match x.attr.joinGroup, x.grp with
    | true, some g => s.setGroup g (s.group g).leaveGroup
    | _, _ => s
  ({ s' with hist := { s'.hist with
    unjoined := if t = cfg.numThreads then s'.hist.unjoined
      else s'.hist.unjoined.filter (· ≠ h) } }).goto t .functor

end State

/-- A thread in `get_task` or under `progress_barrier`. -/
def seek (s : State π) (t : ℕ) (p : Point π) (numAttempts : Word) (top : ℕ) :
    Seek → Option (State π)
  | .test site pc =>
    match p with
    | .wait _ h =>
      let r := s.test h pc
      match r.2 with
      | .inl pc' => some (r.1.goto t (.seeking p numAttempts (.test site pc')))
      | .inr b => (tested cfg p numAttempts site b).map (r.1.goto t)
    | _ => (tested cfg p numAttempts site false).map (s.goto t)
  | .visit k =>
    if k < cfg.numQueues then
      let queueNum := cfg.queueNumber t
      let i := (queueNum + k) % cfg.numQueues
      if LegitTop cfg.policy (compareTaskPtr cfg s) (s.queue i) top then
        match testAndGet cfg.policy (i == queueNum) top (p.predicate cfg s) (s.queue i) with
        | some r => some (s.take t p i r.1 r.2)
        | none => some (s.goto t (.seeking p numAttempts (.visit (k + 1))))
      else none
    else some (s.goto t (missed numAttempts p))

/-- The next step of a thread inside the library. -/
def tick (s : State π) (t : ℕ) (top : ℕ) : Option (State π) :=
  match (s.thread t).ctl with
  | .functor => none
  | .spawning h q => some (s.put cfg t h q)
  | .polling h pc =>
    let r := s.test h pc
    match r.2 with
    | .inl pc' => some (r.1.goto t (.polling h pc'))
    | .inr true => some (r.1.goto t (.leaving h))
    | .inr false => some (r.1.goto t (.polling h .incomplete))
  | .seeking p numAttempts sk => seek cfg s t p numAttempts top sk
  | .took p h pc =>
    match p with
    | .wait _ h' =>
      let r := s.test h' pc
      match r.2 with
      | .inl pc' => some (r.1.goto t (.took p h pc'))
      | .inr _ => some (r.1.goto t (.starting p h))
    | _ => some (s.goto t (.starting p h))
  | .starting p h => some (s.start t p h)
  | .returned f => some (s.notify cfg t f)
  | .leaving h => some (s.leave cfg t h)
  | .spinning g myPhase =>
    if myPhase = (s.group g).barrierPhase then
      some (s.goto t (.seeking (.barrier (s.thread t).cache g myPhase) 0 (.visit 0)))
    else some (s.goto t .functor)

/-- `barrier` of the group of the task on top. A group of at most one task and the type
`BARRIER_WAIT` have no barrier, and the spinning one runs no task. -/
def barrier (s : State π) (t : ℕ) : Option (State π) :=
  match (s.thread t).cache.grp with
  | none => none
  | some g =>
    let x := s.group g
    if 1 < x.groupSize ∧ x.typeOfBarrier = .steal then
      let r := x.arrive
      some ((s.setGroup g r.1).goto t (if r.2 then .spinning g x.barrierPhase else .functor))
    else some s

/-- A call made by the functor on top or by the main program. -/
def call (s : State π) (t : ℕ) : Act π → Option (State π)
  | .spawn h attr g =>
    let q := if queueCurrentThread = attr.queueNumber then cfg.queueNumber t else attr.queueNumber
    if q < cfg.numQueues then some (s.spawn t h attr g q) else none
  | .wait h =>
    if (s.task h).attr.isNested then
      if t = cfg.numThreads then some (s.goto t (.polling h .incomplete))
      else some (s.goto t (getTask cfg (.wait (s.thread t).cache h)))
    else none
  | .barrier => if (s.thread t).frames ≠ [] then barrier s t else none
  | .ret =>
    match (s.thread t).frames with
    | [] => none
    | f :: rest => some (s.ret t f rest)
  | .tick _ => none

def step (s : State π) (l : Label π) : Option (State π) :=
  if l.thread ≤ cfg.numThreads then
    match l.act with
    | .tick top => tick cfg s l.thread top
    | act =>
      match (s.thread l.thread).ctl with
      | .functor => call cfg s l.thread act
      | _ => none
  else none

/-- No task is queued, every worker enters its work loop and the main program runs. -/
def initial : State π where
  task := fun _ => .new cfg.lowest
  group := cfg.groups
  queue := fun _ => []
  thread := fun t => ⟨[], if t = cfg.numThreads then .functor else getTask cfg .work,
    (Task.new cfg.lowest).toCopy⟩
  hist := ⟨fun _ _ => 0, fun _ => none, fun _ => 0, fun _ => 0, 0, []⟩

def system : System (State π) (Label π) where
  initial := initial cfg
  step := step cfg

/-- Numbers as priorities, ordered by `std::less`, with stealing barriers for groups of two. -/
def Config.small (policy : Policy) (threadsPerQueue : List ℕ) : Config ℕ where
  policy := policy
  threadsPerQueue := threadsPerQueue
  taskMaxAttempts := 2
  comp := fun a b => a < b
  lowest := 0
  groups := fun _ => .new 2 .steal

/-- Consecutive steps of one thread inside the library. -/
def ticks (t n : ℕ) : List (Label ℕ) :=
  List.replicate n ⟨t, .tick 0⟩

end PFunc.TaskManager
