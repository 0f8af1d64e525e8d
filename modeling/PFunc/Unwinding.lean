import PFunc.Event
import PFunc.Exceptions
import PFunc.LabelledRuns
import PFunc.Task

/-!
# The task manager with exceptions

`run` stores what the functor throws in its task, and `notify` throws it again before it
touches the event; it then passes the catch blocks of the scheduling point at which the
task was taken. Every access to a pointer `except` is a step of its own. Which queued task
a worker takes and when a barrier opens are left open, and so is which wake-up ends a wait
on a waitable event. A thread that runs into undefined behaviour goes no further.
-/

namespace PFunc.Exceptions

open LabelledRuns Atomics Event

/-- The objects with a pointer `except`. A thread's entry of `task_cache` is one. -/
inductive Obj where
  | task (h : Handle)
  | manager
  | group (g : GroupId)
  | cache (t : ℕ)
  deriving DecidableEq

inductive Point where
  | work
  | wait (h : Handle)
  | barrier (g : GroupId)
  deriving DecidableEq

structure Frame where
  task : Handle
  point : Point
  deriving DecidableEq

/-- A catch block that rethrows. -/
structure Catch where
  obj : Obj
  site : Site
  deriving DecidableEq

inductive Ctl where
  /-- the functor on top, the main program, or the work loop -/
  | functor
  | waiting (h : Handle)
  | inBarrier (g : GroupId)
  /-- in the catch block of `run` -/
  | storing (f : Frame) (x : Thrown) (phase : Phase)
  /-- at the check of `notify` -/
  | notifying (f : Frame)
  /-- in a catch block above the point, with those still to come -/
  | catching (p : Point) (c : Catch) (rest : List Catch) (e : Exception) (phase : Phase)
  | rethrowing (p : Point) (c : Catch) (rest : List Catch) (e : Exception)
  /-- out of the work loop by an exception -/
  | left
  | undefined
  deriving DecidableEq

structure Thread where
  frames : List Frame
  ctl : Ctl

/-- What has become of the last spawn of a task. -/
inductive Fate where
  | idle
  | pending
  | returned
  | threw (x : Thrown)
  deriving DecidableEq

inductive Outcome where
  | normal
  | rethrown (e : Exception)
  | undefined
  deriving DecidableEq

/-- The end of a call of `wait` and the fate of its task at that time. -/
structure Return where
  task : Handle
  fate : Fate
  outcome : Outcome
  deriving DecidableEq

/-- The end of a call of `barrier`: the task that has made it, and what the call has thrown. -/
structure Passage where
  task : Option Handle
  group : GroupId
  raised : Option Exception
  deriving DecidableEq

structure State where
  except : Obj → Cell
  eventState : Handle → Word
  isNested : Handle → Bool
  queued : Handle → Bool
  thread : ℕ → Thread
  fate : Handle → Fate
  returns : List Return
  passages : List Passage

inductive Act where
  | spawn (h : Handle) (isNested : Bool)
  | wait (h : Handle)
  | barrier (g : GroupId)
  /-- the barrier opens -/
  | pass
  | ret
  | throw (x : Thrown)
  | take (h : Handle)
  /-- a wake-up reaches the thread in the wait of a waitable event -/
  | wake
  | tick
  deriving DecidableEq

structure Label where
  thread : ℕ
  act : Act
  deriving DecidableEq

/-! ### The catch blocks -/

def taskRun : Site := ⟨"task", "run", "task.hpp:107"⟩

/-- The catch blocks between `notify` and the caller of the scheduling point, by thread `t`. -/
def Point.catches (t : ℕ) : Point → Catch × List Catch
  | .work => (⟨.manager, ⟨"taskmgr", "op_paranthesis", "taskmgr.hpp:664"⟩⟩, [])
  | .wait h => (⟨.manager, ⟨"taskmgr", "progress_wait", "taskmgr.hpp:725"⟩⟩,
      [⟨.task h, ⟨"task", "run", "task.hpp:127"⟩⟩])
  | .barrier g => (⟨.manager, ⟨"taskmgr", "progress_wait", "taskmgr.hpp:764"⟩⟩,
      [⟨.group g, ⟨"group", "barrier_steal", "group.hpp:73"⟩⟩,
        ⟨.group g, ⟨"group", "barrier", "group.hpp:136"⟩⟩,
        ⟨.cache t, ⟨"task", "run", "task.hpp:176"⟩⟩,
        ⟨.manager, ⟨"taskmgr", "current_task_group_barrier", "taskmgr.hpp:222"⟩⟩])

namespace Ctl

/-- The scheduling point a thread is at, or to which it is about to come back. -/
def point : Ctl → Option Point
  | .waiting h => some (.wait h)
  | .inBarrier g => some (.barrier g)
  | .storing f _ _ => some f.point
  | .notifying f => some f.point
  | .catching p _ _ _ _ => some p
  | .rethrowing p _ _ _ => some p
  | _ => none

/-- The task whose functor has ended and which is not notified yet. -/
def token : Ctl → Option Handle
  | .storing f _ _ => some f.task
  | .notifying f => some f.task
  | _ => none

/-- Between the first access of a catch block to a pointer and the last one: the object,
what its exception is replaced by, and whether it has been already. -/
def replacing : Ctl → Option (Obj × Thrown × Bool)
  | .storing f x .assign => some (.task f.task, x, false)
  | .storing f x .trace => some (.task f.task, x, true)
  | .catching _ c _ e .assign => some (c.obj, .pfunc e, false)
  | .catching _ c _ e .trace => some (c.obj, .pfunc e, true)
  | .rethrowing _ c _ e => some (c.obj, .pfunc e, true)
  | _ => none

/-- Back at the scheduling point after `notify` has returned. -/
def resume : Point → Ctl
  | .work => .functor
  | .wait h => .waiting h
  | .barrier g => .inBarrier g

/-- At the first catch block above the point. -/
def unwind (t : ℕ) (p : Point) (e : Exception) : Ctl :=
  .catching p (p.catches t).1 (p.catches t).2 e .destroy

end Ctl

namespace State

def setThread (s : State) (t : ℕ) (th : Thread) : State :=
  { s with thread := Function.update s.thread t th }

def goto (s : State) (t : ℕ) (c : Ctl) : State :=
  s.setThread t { s.thread t with ctl := c }

def setExcept (s : State) (o : Obj) (cell : Cell) : State :=
  { s with except := Function.update s.except o cell }

/-- An access to a pointer; `cell` is missing where the behaviour is undefined. -/
def access (s : State) (t : ℕ) (o : Obj) (cell : Option Cell) (c : Ctl) : State :=
  match cell with
  | some cell => (s.setExcept o cell).goto t c
  | none => s.goto t .undefined

/-- `spawn_task`; `PFUNC_EXCEPT_PTR_CLEAR` destroys the object that is left. -/
def spawn (s : State) (t : ℕ) (h : Handle) (isNested : Bool) : State :=
  if s.except (.task h) = .freed then s.goto t .undefined
  else { s.setExcept (.task h) .null with
    eventState := Function.update s.eventState h activeIncomplete
    isNested := Function.update s.isNested h isNested
    queued := Function.update s.queued h true
    fate := Function.update s.fate h .pending }

/-- A call of `wait` ends. -/
def endWait (s : State) (t : ℕ) (h : Handle) (o : Outcome) : State :=
  ({ s with returns := ⟨h, s.fate h, o⟩ :: s.returns }).goto t
    (if o = Outcome.undefined then .undefined else .functor)

/-- A call of `barrier` ends. What it has thrown is in the functor of the caller now, which
catches it or throws it on. -/
def endBarrier (s : State) (t : ℕ) (g : GroupId) (raised : Option Exception) : State :=
  let passage := ⟨(s.thread t).frames.head?.map Frame.task, g, raised⟩
  ({ s with passages := passage :: s.passages }).goto t .functor

/-- A functor ends. -/
def endTask (s : State) (t : ℕ) (f : Frame) (rest : List Frame) (fate : Fate) (c : Ctl) : State :=
  { s.setThread t ⟨rest, c⟩ with fate := Function.update s.fate f.task fate }

def take (s : State) (t : ℕ) (p : Point) (h : Handle) : State :=
  { s.setThread t ⟨⟨h, p⟩ :: (s.thread t).frames, .functor⟩ with
    queued := Function.update s.queued h false }

/-- `notify` sets the event. -/
def complete (s : State) (t : ℕ) (f : Frame) : State :=
  ({ s with eventState := Function.update s.eventState f.task activeComplete }).goto t
    (.resume f.point)

/-- A catch block has thrown `e`: the next one catches it, or the call returns by it. -/
def passOn (s : State) (t : ℕ) (p : Point) (e : Exception) : List Catch → State
  | c :: rest => s.goto t (.catching p c rest e .destroy)
  | [] =>
    match p with
    | .work => s.goto t .left
    | .wait h => s.endWait t h (.rethrown e)
    | .barrier g => s.endBarrier t g (some e)

end State

/-- The next step of a thread inside the library. -/
def tick (s : State) (t : ℕ) : Option State :=
  match (s.thread t).ctl with
  | .waiting h => if s.eventState h = activeIncomplete then none else some (s.endWait t h .normal)
  | .storing f x phase =>
    let next := match phase with
      | .destroy => .storing f x .assign
      | .assign => .storing f x .trace
      | .trace => .notifying f
    some (s.access t (.task f.task) ((s.except (.task f.task)).replace x taskRun phase) next)
  | .notifying f =>
    match s.except (.task f.task) with
    | .null => some (s.complete t f)
    | .live e => some (s.goto t (.unwind t f.point e))
    | .freed => some (s.goto t .undefined)
  | .catching p c rest e phase =>
    let next := match phase with
      | .destroy => .catching p c rest e .assign
      | .assign => .catching p c rest e .trace
      | .trace => .rethrowing p c rest e
    some (s.access t c.obj ((s.except c.obj).replace (.pfunc e) c.site phase) next)
  | .rethrowing p c rest _ =>
    match s.except c.obj with
    | .live e => some (s.passOn t p e rest)
    | _ => some (s.goto t .undefined)
  | _ => none

/-- A call made by the functor on top or by the main program. -/
def call (s : State) (t : ℕ) : Act → Option State
  | .spawn h isNested => some (s.spawn t h isNested)
  | .wait h =>
    match s.except (.task h) with
    | .null => some (s.goto t (.waiting h))
    | .live e => some (s.endWait t h (.rethrown e))
    | .freed => some (s.endWait t h .undefined)
  | .barrier g => if (s.thread t).frames = [] then none else some (s.goto t (.inBarrier g))
  | .ret =>
    match (s.thread t).frames with
    | [] => none
    | f :: rest => some (s.endTask t f rest .returned (.notifying f))
  | .throw x =>
    match (s.thread t).frames with
    | [] => none
    | f :: rest => some (s.endTask t f rest (.threw x) (.storing f x .destroy))
  | _ => none

variable (numThreads : ℕ)

/-- The point at which a worker may take a task. -/
def takePoint (s : State) (t : ℕ) : Option Point :=
  match (s.thread t).ctl with
  | .functor => if (s.thread t).frames = [] then some .work else none
  | .waiting h => if s.isNested h then some (.wait h) else none
  | .inBarrier g => some (.barrier g)
  | _ => none

def step (s : State) (l : Label) : Option State :=
  let t := l.thread
  if t ≤ numThreads then
    match l.act, (s.thread t).ctl with
    | .tick, _ => tick s t
    | .take h, _ =>
      if t < numThreads ∧ s.queued h then (takePoint s t).map (s.take t · h) else none
    | .pass, .inBarrier g => some (s.endBarrier t g none)
    | .wake, .waiting h => if s.isNested h then none else some (s.endWait t h .normal)
    | act, .functor =>
      if t = numThreads ∨ (s.thread t).frames ≠ [] then call s t act else none
    | _, _ => none
  else none

def initial : State where
  except := fun _ => .null
  eventState := fun _ => inactive
  isNested := fun _ => true
  queued := fun _ => false
  thread := fun _ => ⟨[], .functor⟩
  fate := fun _ => .idle
  returns := []
  passages := []

def system : System State Label where
  initial := initial
  step := step numThreads

/-! ### What one step can do -/

variable {numThreads : ℕ} {s s' : State} {l : Label}

/-- How a call of `wait` ends, and with which outcome. -/
inductive WaitEnds (s : State) (l : Label) (h : Handle) : Outcome → Prop
  | check (e : Exception) (hact : l.act = .wait h) (hc : (s.thread l.thread).ctl = .functor)
      (hcell : s.except (.task h) = .live e) : WaitEnds s l h (.rethrown e)
  | freed (hact : l.act = .wait h) (hc : (s.thread l.thread).ctl = .functor)
      (hcell : s.except (.task h) = .freed) : WaitEnds s l h .undefined
  | event (hc : (s.thread l.thread).ctl = .waiting h) (he : s.eventState h ≠ activeIncomplete) :
      WaitEnds s l h .normal
  | wake (hact : l.act = .wake) (hc : (s.thread l.thread).ctl = .waiting h) :
      WaitEnds s l h .normal
  | unwound (c : Catch) (e e' : Exception)
      (hc : (s.thread l.thread).ctl = .rethrowing (.wait h) c [] e)
      (hcell : s.except c.obj = .live e') : WaitEnds s l h (.rethrown e')

/-- How a call of `barrier` ends, and what it has thrown. -/
inductive BarrierEnds (s : State) (l : Label) (g : GroupId) : Option Exception → Prop
  | pass (hc : (s.thread l.thread).ctl = .inBarrier g) : BarrierEnds s l g none
  | unwound (c : Catch) (e e' : Exception)
      (hc : (s.thread l.thread).ctl = .rethrowing (.barrier g) c [] e)
      (hcell : s.except c.obj = .live e') : BarrierEnds s l g (some e')

/-- Where a thread runs into undefined behaviour outside the check of `wait`. -/
inductive Fails (s : State) (l : Label) : Prop
  | spawn (h : Handle) (isNested : Bool) (hact : l.act = .spawn h isNested)
      (hc : (s.thread l.thread).ctl = .functor) (hcell : s.except (.task h) = .freed)
  | notify (f : Frame) (hact : l.act = .tick) (hc : (s.thread l.thread).ctl = .notifying f)
      (hcell : s.except (.task f.task) = .freed)
  | store (f : Frame) (x : Thrown) (phase : Phase) (hact : l.act = .tick)
      (hc : (s.thread l.thread).ctl = .storing f x phase)
      (hcell : (s.except (.task f.task)).replace x taskRun phase = none)
  | caught (p : Point) (c : Catch) (rest : List Catch) (e : Exception) (phase : Phase)
      (hact : l.act = .tick) (hc : (s.thread l.thread).ctl = .catching p c rest e phase)
      (hcell : (s.except c.obj).replace (.pfunc e) c.site phase = none)
  | rethrow (p : Point) (c : Catch) (rest : List Catch) (e : Exception)
      (hc : (s.thread l.thread).ctl = .rethrowing p c rest e)
      (hcell : ∀ e', s.except c.obj ≠ .live e')

/-- A change of the control alone. -/
inductive Goes (s : State) (l : Label) : Ctl → Prop
  | wait (h : Handle) (hact : l.act = .wait h) (hc : (s.thread l.thread).ctl = .functor)
      (hcell : s.except (.task h) = .null) : Goes s l (.waiting h)
  | barrier (g : GroupId) (hc : (s.thread l.thread).ctl = .functor) : Goes s l (.inBarrier g)
  | notify (f : Frame) (e : Exception) (hc : (s.thread l.thread).ctl = .notifying f)
      (hcell : s.except (.task f.task) = .live e) : Goes s l (.unwind l.thread f.point e)
  | rethrow (p : Point) (c c' : Catch) (rest : List Catch) (e e' : Exception)
      (hc : (s.thread l.thread).ctl = .rethrowing p c (c' :: rest) e)
      (hcell : s.except c.obj = .live e') : Goes s l (.catching p c' rest e' .destroy)
  | leave (c : Catch) (e : Exception) (hc : (s.thread l.thread).ctl = .rethrowing .work c [] e) :
      Goes s l .left
  | fail (hfails : Fails s l) : Goes s l .undefined

/-- One access of a catch block: the pointer, what is thrown, and the control after it. -/
inductive Accesses (s : State) (l : Label) : Obj → Thrown → Phase → Site → Ctl → Prop
  | storeDestroy (f : Frame) (x : Thrown) (hc : (s.thread l.thread).ctl = .storing f x .destroy) :
      Accesses s l (.task f.task) x .destroy taskRun (.storing f x .assign)
  | storeAssign (f : Frame) (x : Thrown) (hc : (s.thread l.thread).ctl = .storing f x .assign) :
      Accesses s l (.task f.task) x .assign taskRun (.storing f x .trace)
  | storeTrace (f : Frame) (x : Thrown) (hc : (s.thread l.thread).ctl = .storing f x .trace) :
      Accesses s l (.task f.task) x .trace taskRun (.notifying f)
  | catchDestroy (p : Point) (c : Catch) (rest : List Catch) (e : Exception)
      (hc : (s.thread l.thread).ctl = .catching p c rest e .destroy) :
      Accesses s l c.obj (.pfunc e) .destroy c.site (.catching p c rest e .assign)
  | catchAssign (p : Point) (c : Catch) (rest : List Catch) (e : Exception)
      (hc : (s.thread l.thread).ctl = .catching p c rest e .assign) :
      Accesses s l c.obj (.pfunc e) .assign c.site (.catching p c rest e .trace)
  | catchTrace (p : Point) (c : Catch) (rest : List Catch) (e : Exception)
      (hc : (s.thread l.thread).ctl = .catching p c rest e .trace) :
      Accesses s l c.obj (.pfunc e) .trace c.site (.rethrowing p c rest e)

inductive Effect (s : State) (l : Label) : State → Prop
  | spawn (h : Handle) (isNested : Bool) (hact : l.act = .spawn h isNested)
      (hc : (s.thread l.thread).ctl = .functor) (hcell : s.except (.task h) ≠ .freed) :
      Effect s l (s.spawn l.thread h isNested)
  | endWait (h : Handle) (o : Outcome) (hends : WaitEnds s l h o) :
      Effect s l (s.endWait l.thread h o)
  | endBarrier (g : GroupId) (raised : Option Exception) (hends : BarrierEnds s l g raised) :
      Effect s l (s.endBarrier l.thread g raised)
  | endTask (f : Frame) (rest : List Frame) (fate : Fate) (c : Ctl)
      (hc : (s.thread l.thread).ctl = .functor) (hf : (s.thread l.thread).frames = f :: rest)
      (hcase : fate = .returned ∧ c = .notifying f ∨
        ∃ x, l.act = .throw x ∧ fate = .threw x ∧ c = .storing f x .destroy) :
      Effect s l (s.endTask l.thread f rest fate c)
  | take (h : Handle) (p : Point) (hq : s.queued h)
      (hp : takePoint s l.thread = some p) : Effect s l (s.take l.thread p h)
  | complete (f : Frame) (hc : (s.thread l.thread).ctl = .notifying f)
      (hcell : s.except (.task f.task) = .null) : Effect s l (s.complete l.thread f)
  | access (o : Obj) (x : Thrown) (phase : Phase) (site : Site) (c : Ctl) (cell : Cell)
      (hact : l.act = .tick) (haccess : Accesses s l o x phase site c)
      (hcell : (s.except o).replace x site phase = some cell) :
      Effect s l ((s.setExcept o cell).goto l.thread c)
  | goto (c : Ctl) (hgoes : Goes s l c) : Effect s l (s.goto l.thread c)

theorem access_effect {o : Obj} {x : Thrown} {phase : Phase} {site : Site} {c : Ctl}
    (hact : l.act = .tick) (haccess : Accesses s l o x phase site c)
    (hfails : (s.except o).replace x site phase = none → Fails s l) :
    Effect s l (s.access l.thread o ((s.except o).replace x site phase) c) := by
  unfold State.access
  split
  next cell hcell => exact .access o x phase site c cell hact haccess hcell
  next hcell => exact .goto _ (.fail (hfails hcell))

theorem passOn_effect {p : Point} {c : Catch} {rest : List Catch} {e e' : Exception}
    (hc : (s.thread l.thread).ctl = .rethrowing p c rest e) (hcell : s.except c.obj = .live e') :
    Effect s l (s.passOn l.thread p e' rest) := by
  cases rest with
  | cons c' rest' => exact .goto _ (.rethrow p c c' rest' e e' hc hcell)
  | nil =>
    cases p with
    | work => exact .goto _ (.leave c e hc)
    | wait h => exact .endWait h (.rethrown e') (.unwound c e e' hc hcell)
    | barrier g => exact .endBarrier g (some e') (.unwound c e e' hc hcell)

theorem tick_effect (hact : l.act = .tick) (h : tick s l.thread = some s') : Effect s l s' := by
  unfold tick at h
  split at h
  next h' hc =>
    split at h
    next => cases h
    next he =>
      cases h
      exact .endWait h' .normal (.event hc he)
  next f x phase hc =>
    cases h
    have hfails := fun hcell => Fails.store f x phase hact hc hcell
    cases phase with
    | destroy => exact access_effect hact (.storeDestroy f x hc) hfails
    | assign => exact access_effect hact (.storeAssign f x hc) hfails
    | trace => exact access_effect hact (.storeTrace f x hc) hfails
  next f hc =>
    split at h
    next hcell =>
      cases h
      exact .complete f hc hcell
    next e hcell =>
      cases h
      exact .goto _ (.notify f e hc hcell)
    next hcell =>
      cases h
      exact .goto _ (.fail (.notify f hact hc hcell))
  next p c rest e phase hc =>
    cases h
    have hfails := fun hcell => Fails.caught p c rest e phase hact hc hcell
    cases phase with
    | destroy => exact access_effect hact (.catchDestroy p c rest e hc) hfails
    | assign => exact access_effect hact (.catchAssign p c rest e hc) hfails
    | trace => exact access_effect hact (.catchTrace p c rest e hc) hfails
  next p c rest e hc =>
    split at h
    next e' hcell =>
      cases h
      exact passOn_effect hc hcell
    next hcell =>
      cases h
      exact .goto _ (.fail (.rethrow p c rest e hc hcell))
  next => cases h

theorem call_effect (hc : (s.thread l.thread).ctl = .functor)
    (h : call s l.thread l.act = some s') : Effect s l s' := by
  cases hact : l.act with
  | spawn h' isNested =>
    simp only [hact, call, Option.some.injEq] at h
    subst h
    by_cases hcell : s.except (.task h') = .freed
    · simp only [State.spawn, hcell, if_true]
      exact .goto _ (.fail (.spawn h' isNested hact hc hcell))
    · exact .spawn h' isNested hact hc hcell
  | wait h' =>
    simp only [hact, call] at h
    split at h
    next hcell =>
      cases h
      exact .goto _ (.wait h' hact hc hcell)
    next e hcell =>
      cases h
      exact .endWait h' _ (.check e hact hc hcell)
    next hcell =>
      cases h
      exact .endWait h' _ (.freed hact hc hcell)
  | barrier g =>
    simp only [hact, call, Option.ite_none_left_eq_some, Option.some.injEq] at h
    obtain ⟨-, rfl⟩ := h
    exact .goto _ (.barrier g hc)
  | ret =>
    simp only [hact, call] at h
    split at h
    next => cases h
    next f rest hf =>
      cases h
      exact .endTask f rest _ _ hc hf (.inl ⟨rfl, rfl⟩)
  | throw x =>
    simp only [hact, call] at h
    split at h
    next => cases h
    next f rest hf =>
      cases h
      exact .endTask f rest _ _ hc hf (.inr ⟨x, hact, rfl, rfl⟩)
  | pass => simp [hact, call] at h
  | take h' => simp [hact, call] at h
  | wake => simp [hact, call] at h
  | tick => simp [hact, call] at h

theorem step_effect (h : step numThreads s l = some s') :
    l.thread ≤ numThreads ∧ Effect s l s' := by
  simp only [step, Option.ite_none_right_eq_some] at h
  obtain ⟨hle, h⟩ := h
  refine ⟨hle, ?_⟩
  split at h
  next hact => exact tick_effect hact h
  next h' hact =>
    simp only [Option.ite_none_right_eq_some] at h
    obtain ⟨⟨-, hq⟩, h⟩ := h
    obtain ⟨p, hp, rfl⟩ := Option.map_eq_some_iff.mp h
    exact .take h' p hq hp
  next g hact hc =>
    cases h
    exact .endBarrier g none (.pass hc)
  next h' hact hc =>
    split at h
    next => cases h
    next =>
      cases h
      exact .endWait h' .normal (.wake hact hc)
  next hc _ _ =>
    split at h
    next => exact call_effect hc h
    next => cases h
  next => cases h

end PFunc.Exceptions
